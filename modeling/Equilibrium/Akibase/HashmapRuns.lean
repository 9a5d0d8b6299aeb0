import Equilibrium.Akibase.Hashmap
import Equilibrium.Containers.UnorderedMapStores

/-! The probes of `Map<V>` in terms of the slots they pass. A buffer is seen as a table of
empty, occupied and deleted slots, and a key's hash as the unsigned number of the same bits,
so that the facts about probing such tables apply to it. -/

namespace Equilibrium.Hashmap

open Library.CyclicProbe UnorderedMap

/-- The bits of the hash, for tables that mask them. -/
instance : Hashable Str := ⟨fun key => (hmFnv key).toUInt64⟩

theorem toNat_hash (key : Str) : (hash key).toNat = (hmFnv key).toBitVec.toNat := rfl

theorem hmFnv_cases (key : Str) : 0 ≤ (hmFnv key).toInt ∨ (hmFnv key).toInt = -(2 ^ 63 : ℕ) := by
  unfold hmFnv
  generalize key.bytes.foldl _ _ = h
  dsimp only
  split
  case isTrue hneg =>
    have hlt : h.toInt < 0 := by simpa using Int64.lt_iff_toInt_lt.mp hneg
    have hge : -2 ^ 63 ≤ h.toInt := h.minValue_le_toInt
    rw [Int64.toInt_sub]
    by_cases hleast : h.toInt = -2 ^ 63
    case pos =>
      right
      rw [hleast]
      decide
    case neg =>
      left
      have hzero : (0 : Int64).toInt = 0 := rfl
      rw [Int.bmod_eq_of_le (by omega) (by omega)]
      omega
  case isFalse hnonneg =>
    left
    have : ¬ h.toInt < 0 := fun hlt => hnonneg (Int64.lt_iff_toInt_lt.mpr (by simpa using hlt))
    omega

theorem home_eq {cap k : ℕ} (hcap : cap = 2 ^ k) (hk : k ≤ 63) (key : Str) :
    home (hmFnv key) cap = (bucketFor cap key : ℕ) := by
  have hpow : ∃ k, cap = 2 ^ k := ⟨k, hcap⟩
  rw [bucketFor, and_pred_eq_mod hpow, toNat_hash, home]
  have hlt := (hmFnv key).toBitVec.isLt
  have hint : (hmFnv key).toInt = (hmFnv key).toBitVec.toInt := rfl
  rw [BitVec.toInt_eq_toNat_cond] at hint
  generalize (hmFnv key).toBitVec.toNat = n at hlt hint ⊢
  obtain hpos | hleast := hmFnv_cases key
  case inl =>
    rw [hint] at hpos ⊢
    split at hpos
    case isTrue hsmall =>
      rw [if_pos hsmall]
      exact (Int.ofNat_tmod n cap).symm
    case isFalse => omega
  case inr =>
    have hn : n = 2 ^ 63 := by
      split at hint
      · omega
      · omega
    have hdvd : cap ∣ 2 ^ 63 := hcap ▸ Nat.pow_dvd_pow 2 hk
    rw [hleast, Int.neg_tmod, hn, ← Int.ofNat_tmod, Nat.mod_eq_zero_of_dvd hdvd]
    rfl

def slotOf (buf : List Slot) (i : ℕ) : Slot := buf.getD i {}

theorem slotAt_eq {buf : List Slot} {i : ℕ} (hi : i < buf.length) :
    Hashmap.slotAt buf i = .ok (slotOf buf i) := by
  unfold Hashmap.slotAt
  rw [Int.toNat_natCast, List.getElem?_eq_getElem hi]
  simp [slotOf, hi]

section Probe

variable {β : Type} {buf : List Slot} {cap start : ℕ} {test : Slot → Option β}
  (hlength : buf.length = cap) (hpow : ∃ k, cap = 2 ^ k)
include hlength hpow

theorem probe_skip {j d turns : ℕ} (hjd : j ≤ d) (hturns : d - j ≤ turns)
    (hpass : ∀ l, j ≤ l → l < d → test (slotOf buf (pos cap start l)) = none) :
    probe buf cap test turns (pos cap start j : ℕ) =
      probe buf cap test (turns - (d - j)) (pos cap start d : ℕ) := by
  have hpos : 0 < cap := by
    obtain ⟨k, rfl⟩ := hpow
    exact Nat.two_pow_pos k
  induction turns generalizing j with
  | zero =>
    have : j = d := by omega
    rw [this, Nat.sub_self]
  | succ turns ih =>
    by_cases hlast : j = d
    case pos => rw [hlast, Nat.sub_self, Nat.sub_zero]
    case neg =>
      have hcount : turns + 1 - (d - j) = turns - (d - (j + 1)) := by omega
      have hslot := slotAt_eq (lt_of_lt_of_eq (pos_lt hpos start j) hlength.symm)
      rw [probe, hslot, hcount]
      simp only [hpass j le_rfl (by omega), Int.toNat_natCast]
      rw [and_pred_eq_mod hpow, ← pos_succ]
      exact ih (by omega) (by omega) fun l hl => hpass l (by omega)

theorem probe_found (hs : start < cap) {d : ℕ} (hd : d < cap) {found : β}
    (hfound : test (slotOf buf (pos cap start d)) = some found)
    (hpass : ∀ l < d, test (slotOf buf (pos cap start l)) = none) :
    probe buf cap test cap start = .ok (some (pos cap start d, found)) := by
  have hskip : probe buf cap test cap (pos cap start 0 : ℕ) =
      probe buf cap test (cap - (d - 0)) (pos cap start d : ℕ) :=
    probe_skip hlength hpow (Nat.zero_le d) (by omega) fun l _ => hpass l
  have hslot := slotAt_eq (lt_of_lt_of_eq (pos_lt (by omega) start d) hlength.symm)
  obtain ⟨turns, hturns⟩ : ∃ turns, cap - (d - 0) = turns + 1 := ⟨cap - d - 1, by omega⟩
  rw [pos_zero hs] at hskip
  rw [hskip, hturns, probe, hslot]
  simp only [hfound, Int.toNat_natCast]

theorem probe_none (hs : start < cap)
    (hpass : ∀ l < cap, test (slotOf buf (pos cap start l)) = none) :
    probe buf cap test cap start = .ok none := by
  have hskip : probe buf cap test cap (pos cap start 0 : ℕ) =
      probe buf cap test (cap - (cap - 0)) (pos cap start cap : ℕ) :=
    probe_skip hlength hpow (Nat.zero_le cap) (by omega) fun l _ => hpass l
  rw [pos_zero hs] at hskip
  rw [hskip, Nat.sub_zero, Nat.sub_self, probe]

end Probe

/-! A buffer as a table of pairs. -/

/-- The states that the operations write, and the hash beside a key. -/
structure Slot.WellFormed (slot : Hashmap.Slot) : Prop where
  state : slot.state = 0 ∨ slot.state = 1 ∨ slot.state = 2
  hash : slot.state = 1 → slot.hash = hmFnv slot.key

theorem wellFormed_default : Slot.WellFormed {} := ⟨.inl rfl, nofun⟩

variable {V : Type} (casts : Casts V)

def view (slot : Hashmap.Slot) : Equilibrium.Slot Str V :=
  if slot.state = 0 then .empty
  else if slot.state = 1 then .occupied slot.key (casts.ofI64 slot.value)
  else .deleted

def table (buf : List Hashmap.Slot) : List (Equilibrium.Slot Str V) := buf.map (view casts)

@[simp] theorem length_table (buf : List Hashmap.Slot) : (table casts buf).length = buf.length :=
  List.length_map ..

theorem slotAt_table (buf : List Hashmap.Slot) (i : ℕ) :
    UnorderedMap.slotAt (table casts buf) i = view casts (slotOf buf i) := by
  simp only [UnorderedMap.slotAt, table, slotOf, List.getD_eq_getElem?_getD, List.getElem?_map]
  cases buf[i]? <;> rfl

theorem table_set (buf : List Hashmap.Slot) (i : ℕ) (slot : Hashmap.Slot) :
    table casts (buf.set i slot) = (table casts buf).set i (view casts slot) := by
  rw [table, List.map_set]
  rfl

@[simp] theorem table_replicate (n : ℕ) :
    table casts (List.replicate n {}) = List.replicate n .empty := by
  rw [table, List.map_replicate]
  rfl

theorem modify_eq_set (buf : List Hashmap.Slot) (i : ℕ) (f : Hashmap.Slot → Hashmap.Slot) :
    buf.modify i f = buf.set i (f (slotOf buf i)) := by
  refine List.ext_getElem? fun j => ?_
  rw [List.getElem?_set]
  by_cases hij : i = j
  case pos =>
    subst hij
    by_cases hi : i < buf.length
    · simp [slotOf, hi]
    · simp [hi]
  case neg => simp [hij]

variable {casts}

variable {slot : Hashmap.Slot}

theorem view_empty : view casts slot = .empty ↔ slot.state = 0 := by
  unfold view
  split_ifs <;> simp_all

theorem view_occupied {k : Str} {v : V} : view casts slot = .occupied k v ↔
      slot.state = 1 ∧ slot.key = k ∧ casts.ofI64 slot.value = v := by
  unfold view
  split_ifs <;> simp_all

theorem findTest_none {key : Str} (h : Passes key (view casts slot)) :
    findTest (hmFnv key) key slot = none := by
  obtain ⟨hempty, hkey⟩ := h
  have hstate : ¬ slot.state = 0 := fun hstate => hempty (view_empty.mpr hstate)
  have hholds : slot.holds (hmFnv key) key = false := by
    by_cases hocc : slot.state = 1
    · have := hkey slot.key (casts.ofI64 slot.value) (view_occupied.mpr ⟨hocc, rfl, rfl⟩)
      simp [Slot.holds, this]
    · simp [Slot.holds, hocc]
  simp [findTest, hstate, hholds]

theorem holds_of_view (h : slot.WellFormed) {key : Str} {v : V}
    (hview : view casts slot = .occupied key v) : slot.holds (hmFnv key) key = true := by
  obtain ⟨hstate, rfl, -⟩ := view_occupied.mp hview
  simp [Slot.holds, hstate, h.hash hstate]

theorem wellFormed_slotOf {buf : List Hashmap.Slot} (h : ∀ slot ∈ buf, slot.WellFormed) (i : ℕ) :
    (slotOf buf i).WellFormed := by
  by_cases hi : i < buf.length
  case pos =>
    have hslot : slotOf buf i = buf[i] := by simp [slotOf, hi]
    exact hslot ▸ h _ (List.getElem_mem hi)
  case neg =>
    have hslot : slotOf buf i = {} := by simp [slotOf, hi]
    exact hslot ▸ wellFormed_default

theorem wellFormed_set {buf : List Hashmap.Slot} (h : ∀ slot ∈ buf, slot.WellFormed) {i : ℕ}
    (hslot : slot.WellFormed) : ∀ s ∈ buf.set i slot, s.WellFormed := by
  intro s hs
  obtain hs | rfl := List.mem_or_eq_of_mem_set hs
  · exact h s hs
  · exact hslot

end Equilibrium.Hashmap

/-! `Map<V>` against the finite map of the same operations. `put` takes the first slot without
a pair, also a removed one in front of the slot that holds its key, and then stores the key a
second time; as long as no `put` meets such a slot the two agree. -/

namespace Equilibrium.Hashmap

open Library Library.CyclicProbe UnorderedMap

variable {V : Type} {casts : Casts V} {m : Map} {a : FiniteMap Str V}

/-- The table holds the pairs of the finite map, each once and where a search finds it. -/
structure Represents (casts : Casts V) (m : Map) (a : FiniteMap Str V) : Prop where
  cap : ∃ k, k < 30 ∧ m.cap = 2 ^ k
  length : m.buf.length = m.cap
  slots : ∀ slot ∈ m.buf, slot.WellFormed
  count : m.count = occupiedCount (table casts m.buf)
  load : 4 * m.count < 3 * m.cap + 4
  chained : Chained (table casts m.buf)
  entries : (entries (table casts m.buf)).Perm a.entries

/-! The bounds of the table -/

section

variable (h : Represents casts m a)
include h

theorem Represents.pow : ∃ k, m.cap = 2 ^ k :=
  h.cap.imp fun _ hk => hk.2

theorem Represents.cap_pos : 0 < m.cap := by
  obtain ⟨k, hk⟩ := h.pow
  exact hk ▸ Nat.two_pow_pos k

theorem Represents.cap_le : m.cap ≤ 2 ^ 29 := by
  obtain ⟨k, hk, hcap⟩ := h.cap
  exact hcap ▸ Nat.pow_le_pow_right (by omega) (by omega)

theorem Represents.length_table : (table casts m.buf).length = m.cap := by
  rw [Hashmap.length_table, h.length]

theorem Represents.card : m.count = a.card := by
  rw [h.count, ← length_entries, h.entries.length_eq]
  rfl

end

variable {v : V}

section

variable (h : Represents casts m a)
include h

theorem Represents.mem {i : ℕ} {k : Str}
    (hslot : UnorderedMap.slotAt (table casts m.buf) i = .occupied k v) : (k, v) ∈ a.entries :=
  h.entries.mem_iff.mp (mem_entries.mpr ⟨i, hslot⟩)

theorem Represents.home_eq (key : Str) : home (hmFnv key) m.cap = (bucketFor m.cap key : ℕ) := by
  obtain ⟨k, hk, hcap⟩ := h.cap
  exact Hashmap.home_eq hcap (by omega) key

theorem Represents.bucket_lt (key : Str) : bucketFor m.cap key < m.cap := by
  have hpow : ∃ k, (table casts m.buf).length = 2 ^ k := by
    rw [h.length_table]
    exact h.pow
  have hlt := bucketFor_lt hpow key
  rwa [h.length_table] at hlt

theorem Represents.wellFormed (i : ℕ) : (slotOf m.buf i).WellFormed :=
  wellFormed_slotOf h.slots i

end

/-! Searches -/

variable {key : Str}

section

variable (h : Represents casts m a)
include h

theorem Represents.not_holds {key : Str} (hnone : a.lookup key = none) (i : ℕ) :
    (slotOf m.buf i).holds (hmFnv key) key = false := by
  by_contra hholds
  simp only [Slot.holds, Bool.not_eq_false, Bool.and_eq_true, beq_iff_eq] at hholds
  obtain ⟨⟨hstate, -⟩, hkey⟩ := hholds
  have hview : UnorderedMap.slotAt (table casts m.buf) i =
      .occupied key (casts.ofI64 (slotOf m.buf i).value) := by
    rw [slotAt_table]
    exact view_occupied.mpr ⟨hstate, hkey, rfl⟩
  have := FiniteMap.lookup_eq_none.mp hnone _ (h.mem hview)
  simp at this

theorem Represents.find_none {key : Str} (hnone : a.lookup key = none) : m.find key = .ok none := by
  have htest (i : ℕ) : findTest (hmFnv key) key (slotOf m.buf i) =
      if (slotOf m.buf i).state = 0 then some false else none := by
    simp [findTest, h.not_holds hnone i]
  unfold Map.find
  rw [h.home_eq]
  by_cases hempty : ∃ i < m.cap, (slotOf m.buf i).state = 0
  case pos =>
    obtain ⟨d, hd, hstop, hpass⟩ := exists_first (h.bucket_lt key) hempty
    rw [probe_found h.length h.pow (h.bucket_lt key) hd (by rw [htest, if_pos hstop])
      fun l hl => by rw [htest, if_neg (hpass l hl)]]
  case neg =>
    rw [probe_none h.length h.pow (h.bucket_lt key) fun l _ => by
      rw [htest, if_neg fun hstate => hempty ⟨_, pos_lt h.cap_pos _ l, hstate⟩]]

theorem Represents.first_match (hsome : a.lookup key = some v) : ∃ d < m.cap,
      (∀ l < d, Passes key (view casts (slotOf m.buf (pos m.cap (bucketFor m.cap key) l)))) ∧
      view casts (slotOf m.buf (pos m.cap (bucketFor m.cap key) d)) = .occupied key v := by
  obtain ⟨k, hmem, hkey⟩ := FiniteMap.exists_of_lookup hsome
  obtain rfl : k = key := by simpa using hkey
  obtain ⟨i, hslot⟩ := mem_entries.mp (h.entries.mem_iff.mpr hmem)
  obtain ⟨d, hd, hpass, k', v', hslot', hkey'⟩ := h.chained.first_match hslot hkey
  obtain rfl : k' = k := by simpa using hkey'
  have heq := FiniteMap.eq_of_pairwise a.distinct (h.mem hslot') hmem hkey' hkey
  obtain rfl : v' = v := congrArg Prod.snd heq
  rw [h.length_table] at hd hpass hslot'
  simp only [slotAt_table] at hpass hslot'
  exact ⟨d, hd, hpass, hslot'⟩

theorem Represents.find_some (hsome : a.lookup key = some v) :
    ∃ i < m.cap, m.find key = .ok (some i) ∧ view casts (slotOf m.buf i) = .occupied key v := by
  obtain ⟨d, hd, hpass, hview⟩ := h.first_match hsome
  refine ⟨_, pos_lt h.cap_pos _ d, ?_, hview⟩
  have hstate := (view_occupied.mp hview).1
  have hholds := holds_of_view (h.wellFormed _) hview
  have htest : findTest (hmFnv key) key
      (slotOf m.buf (pos m.cap (bucketFor m.cap key) d)) = some true := by
    simp [findTest, hstate, hholds]
  unfold Map.find
  rw [h.home_eq, probe_found h.length h.pow (h.bucket_lt key) hd htest
    fun l hl => findTest_none (hpass l hl)]

theorem Represents.get (key : Str) :
    m.get casts key = .ok ((a.lookup key).getD (casts.ofI64 0)) := by
  unfold Map.get
  cases hlookup : a.lookup key with
  | none =>
    rw [h.find_none hlookup]
    rfl
  | some v =>
    obtain ⟨i, hi, hfind, hview⟩ := h.find_some hlookup
    rw [hfind]
    dsimp only
    rw [slotAt_eq (h.length ▸ hi)]
    exact congrArg Except.ok (view_occupied.mp hview).2.2

theorem Represents.contains (key : Str) : m.contains key = .ok (a.lookup key).isSome := by
  unfold Map.contains
  cases hlookup : a.lookup key with
  | none => rw [h.find_none hlookup]; rfl
  | some v =>
    obtain ⟨i, -, hfind, -⟩ := h.find_some hlookup
    rw [hfind]
    rfl

theorem Represents.getOr (key : Str) (fallback : V) :
    m.getOr casts key fallback = .ok ((a.lookup key).getD fallback) := by
  unfold Map.getOr
  rw [h.contains]
  cases hlookup : a.lookup key with
  | none => rfl
  | some v =>
    rw [h.get, hlookup]
    rfl

/-! Removal -/

theorem Represents.remove (key : Str) : ∃ m', m.remove key = .ok (m', (a.lookup key).isSome) ∧
      Represents casts m' (a.erase key) := by
  unfold Map.remove
  cases hlookup : a.lookup key with
  | none =>
    have herase : (a.erase key).entries = a.entries := by
      refine List.filter_eq_self.mpr fun e he => ?_
      simp [FiniteMap.lookup_eq_none.mp hlookup e he]
    rw [h.find_none hlookup]
    exact ⟨m, rfl, h.cap, h.length, h.slots, h.count, h.load, h.chained, herase ▸ h.entries⟩
  | some v =>
    obtain ⟨i, hi, hfind, hview⟩ := h.find_some hlookup
    have hslot : UnorderedMap.slotAt (table casts m.buf) i = .occupied key v := by
      rw [slotAt_table, hview]
    have htable : table casts (m.buf.modify i fun slot => { slot with state := 2 }) =
        (table casts m.buf).set i .deleted := by
      rw [modify_eq_set, table_set]
      rfl
    have hcount := occupiedCount_set_deleted hslot
    rw [hfind]
    refine ⟨_, rfl, h.cap, by simp [h.length], ?_, ?_, ?_, ?_, ?_⟩
    case refine_1 =>
      rw [modify_eq_set]
      exact wellFormed_set h.slots ⟨.inr (.inr rfl), nofun⟩
    case refine_2 =>
      have hheld := h.count
      change m.count - 1 = _
      rw [htable]
      omega
    case refine_3 =>
      have hload := h.load
      change 4 * (m.count - 1) < 3 * m.cap + 4
      omega
    case refine_4 =>
      rw [htable]
      exact h.chained.set_deleted (by rwa [h.length_table])
    case refine_5 =>
      rw [htable]
      exact FiniteMap.perm_erase ((entries_set_deleted hslot).symm.trans h.entries) BEq.rfl

end

variable {k : ℕ}

theorem represents_replicate {n : ℕ} (hk : k < 30) (hn : n = 2 ^ k) :
    Represents casts ⟨List.replicate n {}, n, 0⟩ FiniteMap.empty where
  cap := ⟨k, hk, hn⟩
  length := List.length_replicate
  slots slot hslot := by
    rw [List.eq_of_mem_replicate hslot]
    exact wellFormed_default
  count := by rw [table_replicate, occupiedCount_replicate]
  load := by
    change 4 * 0 < 3 * n + 4
    omega
  chained := by
    rw [table_replicate]
    exact chained_of_no_entry fun i => .inl (slotAt_replicate n i)
  entries := by
    rw [table_replicate, entries_replicate]
    exact .refl _

theorem Represents.clear (h : Represents casts m a) : Represents casts m.clear FiniteMap.empty := by
  obtain ⟨k, hk, hcap⟩ := h.cap
  exact represents_replicate hk hcap

/-! Storing a pair -/

theorem Represents.store_new (h : Represents casts m a) (hroom : 4 * m.count < 3 * m.cap)
    (hnone : a.lookup key = none) (value : V) :
    ∃ d < m.cap, probe m.buf m.cap (putTest (hmFnv key) key) m.cap (home (hmFnv key) m.cap) =
        .ok (some (pos m.cap (bucketFor m.cap key) d, false)) ∧
      Represents casts ⟨m.buf.set (pos m.cap (bucketFor m.cap key) d)
        ⟨1, hmFnv key, key, casts.asI64 value⟩, m.cap, m.count + 1⟩ (a.insertNew key value) := by
  have hvacant : ∃ i < m.cap, (view casts (slotOf m.buf i)).isOccupied = false := by
    have hpairs : occupiedCount (table casts m.buf) < (table casts m.buf).length := by
      rw [← h.count, h.length_table]
      omega
    obtain ⟨i, hi, hfree⟩ := exists_vacant hpairs
    rw [slotAt_table] at hfree
    exact ⟨i, h.length_table ▸ hi, hfree⟩
  obtain ⟨d, hd, hfree, hpass⟩ := exists_first (h.bucket_lt key) hvacant
  have hstop : putTest (hmFnv key) key (slotOf m.buf (pos m.cap (bucketFor m.cap key) d)) =
      some false := by
    obtain hstate | hstate | hstate :=
      (h.wellFormed (pos m.cap (bucketFor m.cap key) d)).state
    · simp [putTest, hstate]
    · rw [view_occupied.mpr ⟨hstate, rfl, rfl⟩] at hfree
      cases hfree
    · simp [putTest, hstate]
  have hskip (l : ℕ) (hl : l < d) :
      putTest (hmFnv key) key (slotOf m.buf (pos m.cap (bucketFor m.cap key) l)) = none := by
    have hocc := hpass l hl
    have hstate : (slotOf m.buf (pos m.cap (bucketFor m.cap key) l)).state = 1 := by
      cases hview : view casts (slotOf m.buf (pos m.cap (bucketFor m.cap key) l)) with
      | occupied k v => exact (view_occupied.mp hview).1
      | empty => exact absurd (by rw [hview]; rfl) hocc
      | deleted => exact absurd (by rw [hview]; rfl) hocc
    simp [putTest, hstate, h.not_holds hnone]
  have hidx : pos m.cap (bucketFor m.cap key) d < (table casts m.buf).length := by
    rw [h.length_table]
    exact pos_lt h.cap_pos _ d
  have hfree' : (UnorderedMap.slotAt (table casts m.buf)
      (pos m.cap (bucketFor m.cap key) d)).isOccupied = false := by
    rw [slotAt_table, hfree]
  have hview : view casts ⟨1, hmFnv key, key, casts.asI64 value⟩ = .occupied key value :=
    view_occupied.mpr ⟨rfl, rfl, casts.ofI64_asI64 value⟩
  refine ⟨d, hd, ?_, h.cap, ?_, ?_, ?_, ?_, ?_, ?_⟩
  case refine_1 =>
    rw [h.home_eq, probe_found h.length h.pow (h.bucket_lt key) hd hstop hskip]
  case refine_2 => exact List.length_set.trans h.length
  case refine_3 => exact wellFormed_set h.slots ⟨.inr (.inl rfl), fun _ => rfl⟩
  case refine_4 =>
    rw [table_set, hview, occupiedCount_set_occupied hidx hfree', ← h.count]
  case refine_5 =>
    change 4 * (m.count + 1) < 3 * m.cap + 4
    omega
  case refine_6 =>
    have hchain := h.chained.set_occupied value (by rwa [h.length_table])
      fun l hl => by
        rw [h.length_table, slotAt_table]
        intro hempty
        exact hpass l hl (by rw [hempty]; rfl)
    rw [h.length_table] at hchain
    rw [table_set, hview]
    exact hchain
  case refine_7 =>
    rw [table_set, hview, FiniteMap.insertNew_of_none hnone]
    exact (entries_set_occupied hidx hfree' key value).trans
      ((h.entries.cons _).trans (List.perm_append_singleton _ _).symm)

/-- No removed slot lies before the key's slot where a search for the key starts. -/
def Map.Unhidden (m : Map) (key : Str) : Prop :=
  ∀ d < m.cap, (slotOf m.buf (pos m.cap (home (hmFnv key) m.cap).toNat d)).holds
      (hmFnv key) key = true →
    ∀ l < d, (slotOf m.buf (pos m.cap (home (hmFnv key) m.cap).toNat l)).state ≠ 2

instance (m : Map) (key : Str) : Decidable (m.Unhidden key) :=
  inferInstanceAs (Decidable (∀ d < m.cap, _ → ∀ l < d, _))

theorem Represents.store_present (h : Represents casts m a) (hsome : a.lookup key = some v)
    (hunhidden : m.Unhidden key) (value : V) :
    ∃ d < m.cap, probe m.buf m.cap (putTest (hmFnv key) key) m.cap (home (hmFnv key) m.cap) =
        .ok (some (pos m.cap (bucketFor m.cap key) d, true)) ∧
      Represents casts ⟨m.buf.modify (pos m.cap (bucketFor m.cap key) d)
        fun slot => { slot with value := casts.asI64 value }, m.cap, m.count⟩
        (a.replace key value) := by
  obtain ⟨d, hd, hpass, hview⟩ := h.first_match hsome
  have hstate := (view_occupied.mp hview).1
  have hkey := (view_occupied.mp hview).2.1
  have hholds := holds_of_view (h.wellFormed _) hview
  have hclear := hunhidden d hd
  rw [h.home_eq, Int.toNat_natCast] at hclear
  have hskip (l : ℕ) (hl : l < d) :
      putTest (hmFnv key) key (slotOf m.buf (pos m.cap (bucketFor m.cap key) l)) = none := by
    have hfind := findTest_none (hpass l hl)
    have hdeleted := hclear hholds l hl
    unfold findTest at hfind
    unfold putTest
    split at hfind
    case isTrue => cases hfind
    case isFalse hne =>
      rw [if_neg (by simpa [hdeleted] using hne)]
      exact hfind
  have hslot : UnorderedMap.slotAt (table casts m.buf) (pos m.cap (bucketFor m.cap key) d) =
      .occupied key v := by
    rw [slotAt_table, hview]
  have htable : table casts (m.buf.modify (pos m.cap (bucketFor m.cap key) d)
        fun slot => { slot with value := casts.asI64 value }) =
      (table casts m.buf).set (pos m.cap (bucketFor m.cap key) d) (.occupied key value) := by
    rw [modify_eq_set, table_set]
    congr 1
    exact view_occupied.mpr ⟨hstate, hkey, casts.ofI64_asI64 value⟩
  have hidx := lt_length_of_slotAt_ne (by rw [hslot]; nofun)
  obtain ⟨before, t, after, ht, hslots, hset⟩ := exists_split hidx
  rw [hslot] at ht
  have hentries : UnorderedMap.entries (table casts m.buf) =
      UnorderedMap.entries before ++ (key, v) :: UnorderedMap.entries after := by
    rw [hslots, ← ht, entries_append, entries_occupied]
  refine ⟨d, hd, ?_, h.cap, by simp [h.length], ?_, ?_, h.load, ?_, ?_⟩
  case refine_1 =>
    have hstop : putTest (hmFnv key) key (slotOf m.buf (pos m.cap (bucketFor m.cap key) d)) =
        some true := by
      simp [putTest, hstate, hholds]
    rw [h.home_eq, probe_found h.length h.pow (h.bucket_lt key) hd hstop hskip]
  case refine_2 =>
    rw [modify_eq_set]
    exact wellFormed_set h.slots ⟨.inr (.inl hstate), (h.wellFormed _).hash⟩
  case refine_3 =>
    rw [h.count, htable, hset, hslots, ← ht]
    simp [occupiedCount, List.countP_cons, Slot.isOccupied]
  case refine_4 =>
    have hchain := h.chained.set_occupied value (by rwa [h.length_table])
      fun l hl => by
        rw [h.length_table, slotAt_table]
        exact (hpass l hl).1
    rw [h.length_table] at hchain
    rw [htable]
    exact hchain
  case refine_5 =>
    rw [htable, hset, entries_append]
    exact FiniteMap.perm_replace (hentries ▸ h.entries) BEq.rfl value

/-! Growth -/

theorem growStep {buf : List Hashmap.Slot} {cap : ℕ} (hk : k < 30) (hcap : cap = 2 ^ k)
    (hlength : buf.length = cap) (hslots : ∀ slot ∈ buf, slot.WellFormed)
    (hclean : ∀ slot ∈ buf, slot.state ≠ 2) (hroom : occupiedCount (table casts buf) < cap)
    (hchain : Chained (table casts buf)) {src : Hashmap.Slot} (hsrc : src.WellFormed)
    (hstate : src.state = 1) :
    ∃ idx < cap, probe buf cap growTest cap (home src.hash cap) = .ok (some (idx, ())) ∧
      (UnorderedMap.slotAt (table casts buf) idx).isOccupied = false ∧
      Chained (table casts (buf.set idx ⟨1, src.hash, src.key, src.value⟩)) := by
  have hpow : ∃ k, cap = 2 ^ k := ⟨k, hcap⟩
  have htable : (table casts buf).length = cap := by rw [Hashmap.length_table, hlength]
  have hstart : bucketFor cap src.key < cap := by
    rw [bucketFor, and_pred_eq_mod hpow]
    exact Nat.mod_lt _ (hcap ▸ Nat.two_pow_pos k)
  have hhome : home src.hash cap = (bucketFor cap src.key : ℕ) := by
    rw [hsrc.hash hstate]
    exact home_eq hcap (by omega) src.key
  have hempty (i : ℕ) :
      (slotOf buf i).state = 0 ↔ (UnorderedMap.slotAt (table casts buf) i).isOccupied = false := by
    rw [slotAt_table]
    by_cases hi : i < buf.length
    case pos =>
      have hmem : slotOf buf i ∈ buf := by simp [slotOf, hi]
      obtain hslot | hslot | hslot := (hslots _ hmem).state
      · simp [hslot, view_empty.mpr hslot, Slot.isOccupied]
      · simp [hslot, view_occupied.mpr ⟨hslot, rfl, rfl⟩, Slot.isOccupied]
      · exact absurd hslot (hclean _ hmem)
    case neg =>
      have hslot : slotOf buf i = {} := by simp [slotOf, hi]
      simp [hslot, view, Slot.isOccupied]
  rw [← htable] at hroom
  obtain ⟨i, hi, hvacant⟩ := exists_vacant hroom
  have hvacant' : ∃ i < cap, (slotOf buf i).state = 0 :=
    ⟨i, htable ▸ hi, (hempty i).mpr hvacant⟩
  obtain ⟨d, hd, hstop, hpass⟩ := exists_first hstart hvacant'
  refine ⟨_, pos_lt (by omega) _ d, ?_, (hempty _).mp hstop, ?_⟩
  case refine_1 =>
    have hfound : growTest (slotOf buf (pos cap (bucketFor cap src.key) d)) = some () := by
      simp [growTest, hstop]
    rw [hhome, probe_found hlength hpow hstart hd hfound fun l hl => by
      simp [growTest, hpass l hl]]
  case refine_2 =>
    have hview : view casts ⟨1, src.hash, src.key, src.value⟩ =
        .occupied src.key (casts.ofI64 src.value) :=
      view_occupied.mpr ⟨rfl, rfl, rfl⟩
    have hset := hchain.set_occupied (casts.ofI64 src.value)
      (by rwa [htable]) fun l hl => by
        rw [htable]
        intro hslot
        exact hpass l hl ((hempty _).mpr (by rw [hslot]; rfl))
    rw [htable] at hset
    rw [table_set]
    exact hset

/-- The loop of `grow` moves every pair of the old slots. -/
theorem growLoop_spec {cap : ℕ} (hk : k < 30) (hcap : cap = 2 ^ k) (src : List Hashmap.Slot)
    {buf : List Hashmap.Slot} {count : ℕ} (hsrc : ∀ slot ∈ src, slot.WellFormed)
    (hlength : buf.length = cap) (hslots : ∀ slot ∈ buf, slot.WellFormed)
    (hclean : ∀ slot ∈ buf, slot.state ≠ 2)
    (hroom : occupiedCount (table casts buf) + occupiedCount (table casts src) ≤ cap)
    (hchain : Chained (table casts buf)) : ∃ buf', Map.growLoop cap buf count src =
        .ok (buf', count + occupiedCount (table casts src)) ∧
      buf'.length = cap ∧ (∀ slot ∈ buf', slot.WellFormed) ∧ (∀ slot ∈ buf', slot.state ≠ 2) ∧
      (UnorderedMap.entries (table casts buf')).Perm
        (UnorderedMap.entries (table casts src) ++ UnorderedMap.entries (table casts buf)) ∧
      Chained (table casts buf') := by
  induction src generalizing buf count with
  | nil => exact ⟨buf, rfl, hlength, hslots, hclean, .refl _, hchain⟩
  | cons s rest ih =>
    have hrest : ∀ slot ∈ rest, slot.WellFormed := fun slot h => hsrc slot (by simp [h])
    have hs := hsrc s (by simp)
    by_cases hstate : s.state = 1
    case neg =>
      have hfree : (view casts s).isOccupied = false := by
        cases hview : view casts s with
        | occupied k v => exact absurd (view_occupied.mp hview).1 hstate
        | empty => rfl
        | deleted => rfl
      have hcount : occupiedCount (table casts (s :: rest)) = occupiedCount (table casts rest) := by
        simp [occupiedCount, table, hfree]
      have hentries : UnorderedMap.entries (table casts (s :: rest)) =
          UnorderedMap.entries (table casts rest) := entries_cons_of_free hfree _
      rw [hcount] at hroom ⊢
      rw [hentries, Map.growLoop, if_neg (by simpa using hstate)]
      exact ih hrest hlength hslots hclean hroom hchain
    case pos =>
      have hview : view casts s = .occupied s.key (casts.ofI64 s.value) :=
        view_occupied.mpr ⟨hstate, rfl, rfl⟩
      have hview' : view casts ⟨1, s.hash, s.key, s.value⟩ =
          .occupied s.key (casts.ofI64 s.value) := view_occupied.mpr ⟨rfl, rfl, rfl⟩
      have hcount : occupiedCount (table casts (s :: rest)) =
          occupiedCount (table casts rest) + 1 := by
        rw [table, List.map_cons, hview, occupiedCount, List.countP_cons_of_pos rfl]
        rfl
      have hentries : UnorderedMap.entries (table casts (s :: rest)) =
          (s.key, casts.ofI64 s.value) :: UnorderedMap.entries (table casts rest) := by
        rw [table, List.map_cons, hview]
        rfl
      obtain ⟨idx, hidx, hprobe, hfree, hchain'⟩ :=
        growStep hk hcap hlength hslots hclean (by omega) hchain hs hstate
      have hidx' : idx < (table casts buf).length := by rwa [Hashmap.length_table, hlength]
      have hheld := occupiedCount_set_occupied hidx' hfree s.key (casts.ofI64 s.value)
      have hmoved := entries_set_occupied hidx' hfree s.key (casts.ofI64 s.value)
      rw [← hview', ← table_set] at hheld hmoved
      have hslots' := wellFormed_set hslots (i := idx)
        (⟨.inr (.inl rfl), fun _ => hs.hash hstate⟩ : Slot.WellFormed ⟨1, s.hash, s.key, s.value⟩)
      have hclean' : ∀ slot ∈ buf.set idx ⟨1, s.hash, s.key, s.value⟩, slot.state ≠ 2 := by
        intro slot hslot
        obtain hmem | rfl := List.mem_or_eq_of_mem_set hslot
        · exact hclean slot hmem
        · exact (by decide : (1 : Int64) ≠ 2)
      obtain ⟨buf', hloop, hlength'', hslots'', hclean'', hperm, hfinal⟩ :=
        ih hrest (List.length_set.trans hlength) hslots' hclean' (by omega) hchain'
      refine ⟨buf', ?_, hlength'', hslots'', hclean'', ?_, hfinal⟩
      · rw [Map.growLoop, if_pos (by simpa using hstate), hprobe, hcount]
        dsimp only
        rw [hloop, Nat.add_right_comm, Nat.add_assoc]
      · rw [hentries]
        exact hperm.trans ((hmoved.append_left _).trans List.perm_middle)

theorem i32_ok {n : ℕ} (h : n < 2 ^ 31) : i32 n = .ok n := if_pos h

theorem Represents.growIfFull (h : Represents casts m a)
    (hroom : m.cap * 3 ≤ m.count * 4 → m.cap * 2 < 2 ^ 30) :
    ∃ m', m.growIfFull = .ok m' ∧ Represents casts m' a ∧ 4 * m'.count < 3 * m'.cap ∧
      (m.count * 4 < m.cap * 3 ∧ m' = m ∨
        m.cap * 3 ≤ m.count * 4 ∧ ∀ slot ∈ m'.buf, slot.state ≠ 2) := by
  have hcap := h.cap_le
  have hload := h.load
  unfold Map.growIfFull Map.isFull
  rw [i32_ok (by omega), i32_ok (by omega)]
  dsimp only
  by_cases hfull : m.cap * 3 ≤ m.count * 4
  case neg =>
    rw [decide_eq_false hfull]
    exact ⟨m, rfl, h, by omega, .inl ⟨by omega, rfl⟩⟩
  case pos =>
    obtain ⟨k, hk, hpow⟩ := h.cap
    have hdouble : m.cap * 2 = 2 ^ (k + 1) := by rw [hpow, Nat.pow_succ]
    have hk' : k + 1 < 30 := by
      have hlt := hroom hfull
      rw [hdouble] at hlt
      exact (Nat.pow_lt_pow_iff_right (by omega)).mp hlt
    have hcount := h.count
    have hfresh : Represents casts ⟨List.replicate (m.cap * 2) {}, m.cap * 2, 0⟩
        FiniteMap.empty := represents_replicate hk' hdouble
    have hclean : ∀ slot ∈ List.replicate (m.cap * 2) ({} : Hashmap.Slot), slot.state ≠ 2 := by
      intro slot hslot
      rw [List.eq_of_mem_replicate hslot]
      decide
    have hpairs : occupiedCount (table casts (List.replicate (m.cap * 2) {})) +
        occupiedCount (table casts m.buf) ≤ m.cap * 2 := by
      rw [table_replicate, occupiedCount_replicate]
      omega
    obtain ⟨buf, hloop, hlength, hslots, hclean, hperm, hchain⟩ :=
      growLoop_spec hk' hdouble m.buf h.slots hfresh.length hfresh.slots hclean hpairs
        hfresh.chained
    rw [table_replicate, entries_replicate, List.append_nil] at hperm
    have hsame := occupiedCount_eq_of_perm hperm
    rw [decide_eq_true hfull, Map.grow, i32_ok (by have := hroom hfull; omega)]
    dsimp only
    rw [hloop, ← hcount, Nat.zero_add]
    refine ⟨_, rfl, ⟨⟨k + 1, hk', hdouble⟩, hlength, hslots, ?_, ?_, hchain,
      hperm.trans h.entries⟩, ?_, .inr ⟨hfull, hclean⟩⟩
    · rw [hsame, ← hcount]
    · change 4 * m.count < 3 * (m.cap * 2) + 4
      omega
    · change 4 * m.count < 3 * (m.cap * 2)
      have hpos := h.cap_pos
      obtain hone | htwo : m.cap = 1 ∨ 2 ≤ m.cap := by omega
      · omega
      · omega

/-! Runs -/

def store (a : FiniteMap Str V) (key : Str) (value : V) : FiniteMap Str V :=
  if (a.lookup key).isSome then a.replace key value else a.insertNew key value

def specExec (casts : Casts V) (a : FiniteMap Str V) : Call V → FiniteMap Str V × Reply V
  | .put key value => (store a key value, .done)
  | .get key => (a, .value ((a.lookup key).getD (casts.ofI64 0)))
  | .getOr key fallback => (a, .value ((a.lookup key).getD fallback))
  | .contains key => (a, .flag (a.lookup key).isSome)
  | .remove key => (a.erase key, .flag (a.lookup key).isSome)
  | .clear => (FiniteMap.empty, .done)
  | .len => (a, .number a.card)
  | .isEmpty => (a, .flag (a.card == 0))

/-- A `put` that doubles the table keeps its capacity below 2^30. -/
def InCapacity (m : Map) : Call V → Prop
  | .put _ _ => m.cap * 3 ≤ m.count * 4 → m.cap * 2 < 2 ^ 30
  | _ => True

/-- A `put` that does not double the table meets no removed slot before its key. -/
def FindsItsKey (m : Map) : Call V → Prop
  | .put key _ => m.cap * 3 ≤ m.count * 4 ∨ m.Unhidden key
  | _ => True

instance (m : Map) : DecidablePred (InCapacity (V := V) m)
  | .put _ _ => inferInstanceAs (Decidable (_ → _))
  | .get _ | .getOr _ _ | .contains _ | .remove _ | .clear | .len | .isEmpty => isTrue trivial

instance (m : Map) : DecidablePred (FindsItsKey (V := V) m)
  | .put _ _ => inferInstanceAs (Decidable (_ ∨ _))
  | .get _ | .getOr _ _ | .contains _ | .remove _ | .clear | .len | .isEmpty => isTrue trivial

theorem Represents.put (h : Represents casts m a) {value : V} (hcap : InCapacity m (.put key value))
    (hfinds : FindsItsKey m (.put key value)) :
    ∃ m', m.put casts key value = .ok m' ∧ Represents casts m' (store a key value) := by
  obtain ⟨m₁, hgrow, h₁, hroom, hgrown⟩ := h.growIfFull hcap
  have hunhidden : m₁.Unhidden key := by
    obtain ⟨hfits, rfl⟩ | ⟨-, hclean⟩ := hgrown
    · exact hfinds.resolve_left (by omega)
    · intro d _ _ l _
      refine fun hstate => hclean _ ?_ hstate
      have hidx := lt_of_lt_of_eq
        (pos_lt h₁.cap_pos (home (hmFnv key) m₁.cap).toNat l) h₁.length.symm
      rw [slotOf, List.getD_eq_getElem _ _ hidx]
      exact List.getElem_mem _
  unfold Map.put
  rw [hgrow]
  dsimp only
  cases hlookup : a.lookup key with
  | none =>
    obtain ⟨d, -, hprobe, hstored⟩ := h₁.store_new hroom hlookup value
    rw [hprobe, store, hlookup]
    exact ⟨_, rfl, hstored⟩
  | some v =>
    obtain ⟨d, -, hprobe, hstored⟩ := h₁.store_present hlookup hunhidden value
    rw [hprobe, store, hlookup]
    exact ⟨_, rfl, hstored⟩

theorem Represents.exec (h : Represents casts m a) (call : Call V) (hcap : InCapacity m call)
    (hfinds : FindsItsKey m call) : ∃ m', exec casts m call = .ok (m', (specExec casts a call).2) ∧
      Represents casts m' (specExec casts a call).1 := by
  cases call with
  | put key value =>
    obtain ⟨m', hput, h'⟩ := h.put hcap hfinds
    exact ⟨m', by rw [Hashmap.exec, hput]; rfl, h'⟩
  | get key => exact ⟨m, by rw [Hashmap.exec, h.get]; rfl, h⟩
  | getOr key fallback => exact ⟨m, by rw [Hashmap.exec, h.getOr]; rfl, h⟩
  | contains key => exact ⟨m, by rw [Hashmap.exec, h.contains]; rfl, h⟩
  | remove key =>
    obtain ⟨m', hremove, h'⟩ := h.remove key
    exact ⟨m', by rw [Hashmap.exec, hremove]; rfl, h'⟩
  | clear => exact ⟨m.clear, rfl, h.clear⟩
  | len => exact ⟨m, by rw [Hashmap.exec, Map.len, h.card]; rfl, h⟩
  | isEmpty => exact ⟨m, by rw [Hashmap.exec, Map.isEmpty, h.card]; rfl, h⟩

theorem capLoop_pow {initial : ℤ} {rounds c cap : ℕ} (hc : c = 2 ^ k)
    (h : capLoop initial rounds c = .ok cap) : ∃ k, cap = 2 ^ k := by
  induction rounds generalizing c k with
  | zero => cases h
  | succ rounds ih =>
    rw [capLoop] at h
    split at h
    case isTrue =>
      unfold i32 at h
      split at h
      case h_1 => cases h
      case h_2 heq =>
        split at heq
        case isTrue =>
          cases heq
          exact ih (by rw [hc, Nat.pow_succ]) h
        case isFalse => cases heq
    case isFalse =>
      cases h
      exact ⟨k, hc⟩

theorem represents_new {initial : ℤ} (h : Map.new initial = .ok m) (hcap : m.cap < 2 ^ 30) :
    Represents casts m FiniteMap.empty := by
  unfold Map.new at h
  cases hloop : capLoop initial 32 16 with
  | error stop =>
    rw [hloop] at h
    cases h
  | ok cap =>
    rw [hloop] at h
    cases h
    obtain ⟨k, hk⟩ := capLoop_pow (k := 4) rfl hloop
    refine represents_replicate ?_ hk
    rw [hk] at hcap
    exact (Nat.pow_lt_pow_iff_right (by omega)).mp hcap

/-- Every run whose capacity stays below 2^30 and in which every `put` finds its key returns
with the replies of the finite map, and `len` is the number of its keys. -/
theorem behaves_as_map (casts : Casts V) {initial : ℤ} {m : Map} (hnew : Map.new initial = .ok m)
    (hcap : m.cap < 2 ^ 30) (calls : List (Call V))
    (hguard : Calls.Guarded (exec casts) (fun m call => InCapacity m call ∧ FindsItsKey m call)
      m calls) : ∃ m', Calls.run (exec casts) m calls =
        .ok (m', (Calls.total (specExec casts) FiniteMap.empty calls).2) ∧
      m'.len = (Calls.total (specExec casts) FiniteMap.empty calls).1.card := by
  obtain ⟨m', hrun, hfinal⟩ := Calls.run_matches (fun m a => Represents casts m a)
    (fun m a call h hcall => h.exec call hcall.1 hcall.2) (represents_new hnew hcap) hguard
  exact ⟨m', hrun, hfinal.card⟩

def words : Casts Int64 := ⟨id, id, fun _ => rfl⟩

/-- Two keys with one place: the second is stored again where the first was removed, and is
still there after its removal. -/
def hidingCalls : List (Call Int64) :=
  [.put ⟨[97]⟩ 1, .put ⟨[113]⟩ 2, .remove ⟨[97]⟩, .put ⟨[113]⟩ 3, .len, .remove ⟨[113]⟩,
    .contains ⟨[113]⟩]

def sixteenSlots : Map := ⟨List.replicate 16 {}, 16, 0⟩

theorem put_stores_key_twice : Map.new 16 = .ok sixteenSlots ∧
      Calls.Guarded (exec words) InCapacity sixteenSlots hidingCalls ∧
      (Calls.run (exec words) sixteenSlots hidingCalls).map Prod.snd =
        .ok [.done, .done, .flag true, .done, .number 2, .flag true, .flag true] ∧
      (Calls.total (specExec words) FiniteMap.empty hidingCalls).2 =
        [.done, .done, .flag true, .done, .number 1, .flag true, .flag false] := by
  refine ⟨rfl, ?_, ?_, ?_⟩
  · decide +kernel
  · decide +kernel
  · decide +kernel

theorem behaves_as_map_removed : ∃ m', Calls.run (exec words) sixteenSlots
        [.put ⟨[97]⟩ 1, .put ⟨[113]⟩ 2, .remove ⟨[113]⟩, .put ⟨[113]⟩ 3, .get ⟨[113]⟩] =
          .ok (m', (Calls.total (specExec words) FiniteMap.empty
            [.put ⟨[97]⟩ 1, .put ⟨[113]⟩ 2, .remove ⟨[113]⟩, .put ⟨[113]⟩ 3,
              .get ⟨[113]⟩]).2) ∧ m'.len = (Calls.total (specExec words) FiniteMap.empty
        [.put ⟨[97]⟩ 1, .put ⟨[113]⟩ 2, .remove ⟨[113]⟩, .put ⟨[113]⟩ 3,
          .get ⟨[113]⟩]).1.card :=
  behaves_as_map words (show Map.new 16 = .ok sixteenSlots from rfl) (by decide) _
    (by decide +kernel)

end Equilibrium.Hashmap
