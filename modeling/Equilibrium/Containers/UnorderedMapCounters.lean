import Equilibrium.Containers.UnorderedMapProbing

/-! The counters of `UnorderedMap` over whole runs. Every call but `clear`
keeps them equal to the slot counts; `clear` resets the tombstone counter and
leaves the tombstones, so it is safe on a table without any. -/

namespace Equilibrium.UnorderedMap

open AllocationSize Library.CyclicProbe Bool Function List
open Outcome (safe_ok)

variable {ι K V : Type}

/-- The counters agree with the slots and the table is null or a power of two. -/
structure Consistent (m : UnorderedMap K V) : Prop where
  tombstones : m.tombstoneCount = deletedCount m.slots
  size : m.size = occupiedCount m.slots
  buckets : m.bucketCount = 0 ∨ ∃ k, m.bucketCount = 2 ^ k

variable {m : UnorderedMap K V}

theorem Loaded.consistent (hm : Loaded m) : Consistent m where
  tombstones := hm.tombstones
  size := hm.size
  buckets := hm.buckets.imp_right fun ⟨k, _, _, h⟩ => ⟨k, h⟩

/-- The growth test leaves an empty slot, and the probe loop after it is left. -/
def ProbesEnd [BEq K] [Hashable K] (m : UnorderedMap K V) : Prop :=
  ∀ mem m', growthTest mem m = .ok m' →
    (∃ i < m'.bucketCount, slotAt m'.slots i = .empty) ∧
      ∀ key, prepareLoop m'.slots key m'.bucketCount (bucketFor m'.bucketCount key) none ≠
        .error .hang

theorem Loaded.probesEnd [BEq K] [Hashable K] (hm : Loaded m) : ProbesEnd m := by
  intro mem m' hrun
  have hgrown := (growthTest_safe mem hm).of_eq_ok hrun
  refine ⟨hgrown.exists_empty, fun key => ?_⟩
  have hpow := hgrown.loaded.pow_of_pos hgrown.buckets
  obtain ⟨d, -, fresh, hloop, -⟩ :=
    prepareLoop_ends hpow key (bucketFor_lt hpow key) hgrown.exists_empty
  rw [bucketCount, hloop]
  simp

theorem Loaded.markOccupied (hm : Loaded m)
    (hroom : 4 * (m.size + m.tombstoneCount + 1) ≤ 3 * m.bucketCount) {idx : Nat}
    (hidx : idx < m.bucketCount) (hfree : (slotAt m.slots idx).isOccupied = false) (key : K)
    (val : V) : Loaded (m.markOccupied idx key val) := by
  have hlt := hm.bucketCount_lt
  have hsize : (m.markOccupied idx key val).size = m.size + 1 := wrapAdd_of_lt (by omega)
  have hcount : (m.markOccupied idx key val).bucketCount = m.bucketCount := by
    simp [UnorderedMap.markOccupied, bucketCount]
  have hdel := deletedCount_set hidx (.occupied key val)
  have htomb := hm.tombstones
  have htombs : (m.markOccupied idx key val).tombstoneCount =
      deletedCount (m.markOccupied idx key val).slots := by
    simp only [UnorderedMap.markOccupied, Slot.isDeleted, toNat_false] at hdel ⊢
    cases hs : slotAt m.slots idx <;>
      simp only [hs, toNat_false, toNat_true, false_eq_true,
        if_false, if_true] at hdel ⊢
    · omega
    · omega
    · rw [wrapSub_of_le (by omega) (by omega)]
      omega
  refine ⟨htombs, ?_, hcount ▸ hm.buckets, ?_⟩
  · rw [hsize, hm.size]
    exact (occupiedCount_set_occupied hidx hfree key val).symm
  · rw [hsize, hcount, htombs]
    simp only [UnorderedMap.markOccupied, Slot.isDeleted, toNat_false] at hdel ⊢
    omega

section Insertion

variable [BEq K] [Hashable K]

variable {m : UnorderedMap K V}

theorem findOrPrepareInsert_safe (mem : Memory) (hm : Loaded m) (key : K) :
    (findOrPrepareInsert mem m key).Safe (fun r => Loaded r.1 ∧
      4 * (r.1.size + r.1.tombstoneCount + 1) ≤ 3 * r.1.bucketCount ∧ r.2.1 < r.1.bucketCount ∧
      (r.2.2 = true → (slotAt r.1.slots r.2.1).isOccupied = false)) := by
  refine (growthTest_safe mem hm).bind fun m' hgrown => ?_
  have hpow := hgrown.loaded.pow_of_pos hgrown.buckets
  obtain ⟨d, hd, fresh, hloop, hfree⟩ :=
    prepareLoop_ends hpow key (bucketFor_lt hpow key) hgrown.exists_empty
  rw [bucketCount, hloop]
  exact safe_ok ⟨hgrown.loaded, hgrown.room, pos_lt (length_pos_of_pow hpow) _ d, hfree⟩

theorem insertSlot_safe (mem : Memory) (hm : Loaded m) (key : K) (val : V) :
    (insertSlot mem m key val).Safe (fun r => Loaded r.1) := by
  refine (findOrPrepareInsert_safe mem hm key).bind ?_
  rintro ⟨m', idx, fresh⟩ ⟨hloaded, hroom, hidx, hfree⟩
  cases fresh with
  | false => exact safe_ok hloaded
  | true => exact safe_ok (hloaded.markOccupied hroom hidx (hfree rfl) key val)

theorem subscript_safe [Inhabited V] (mem : Memory) {m : UnorderedMap K V} (hm : Loaded m)
    (key : K) : (subscript mem m key).Safe (fun r => Loaded r.1) :=
  (insertSlot_safe mem hm key default).bind fun _ hr => safe_ok hr

theorem insertAll_safe (mem : Memory) (entries : List (K × V)) {m : UnorderedMap K V}
    (hm : Loaded m) : (insertAll mem m entries).Safe Loaded := by
  induction entries generalizing m with
  | nil => exact safe_ok hm
  | cons entry rest ih =>
    exact (insertSlot_safe mem hm entry.1 entry.2).bind fun _ hr => ih hr

end Insertion

theorem reserve_relocated [Hashable K] (mem : Memory) (hsized : Sized m.bucketCount) (count : Nat) :
    (reserve mem m count).Safe (fun m' => m' = m ∨ Relocated m m') := by
  refine (checkedCountProduct_safe count 4).bind fun product _ => ?_
  refine (checkedCountSum_safe (product / 3) 1).bind fun required _ => ?_
  refine (checkedRoundUpToPowerOfTwo_safe required).bind fun rounded => ?_
  rintro ⟨j, hj, hrounded, -⟩
  dsimp only
  split
  · next hlt =>
    refine (growAndRehash_relocated mem hsized (.inr ?_)).mono fun m' hre => .inr hre.1
    by_cases hfour : 4 ≤ j
    · have hmax : max 16 rounded = 2 ^ j := by
        rw [hrounded]
        exact Nat.max_eq_right (show 2 ^ 4 ≤ 2 ^ j from Nat.pow_le_pow_right (by omega) hfour)
      exact ⟨j, hfour, hj, hmax, hlt⟩
    · have hmax : max 16 rounded = 2 ^ 4 := by
        rw [hrounded]
        exact Nat.max_eq_left (show 2 ^ j ≤ 2 ^ 4 from Nat.pow_le_pow_right (by omega) (by omega))
      exact ⟨4, le_rfl, by omega, hmax, hlt⟩
  · exact safe_ok (.inl rfl)

theorem reserve_safe [Hashable K] (mem : Memory) (hm : Loaded m) (count : Nat) :
    (reserve mem m count).Safe (fun m' => Loaded m' ∧ (entries m'.slots).Perm (entries m.slots) ∧
      (Chained m.slots → Chained m'.slots)) := by
  refine (reserve_relocated mem hm.buckets count).mono ?_
  rintro m' (rfl | hre)
  · exact ⟨hm, .refl _, id⟩
  · exact ⟨(hre.rehashed hm).loaded, hre.entries, fun _ => hre.chained⟩

theorem ofList_safe [BEq K] [Hashable K] (mem : Memory) (entries : List (K × V)) :
    (ofList mem entries).Safe Loaded :=
  (reserve_safe mem loaded_default entries.length).bind fun _ hm => insertAll_safe mem entries hm.1

theorem copied_safe [Hashable K] (mem : Memory) {other : UnorderedMap K V} (ho : Loaded other)
    (hsize : 0 < other.size) :
    (do let slots ← allocSlots mem other.bucketCount
        let (table, placed) ← relocate slots 0 other.slots
        .ok { slots := table, size := placed, tombstoneCount := 0 } :
      Outcome (UnorderedMap K V)).Safe (fun m => Loaded m ∧
        (entries m.slots).Perm (entries other.slots) ∧ Chained m.slots) := by
  refine (allocSlots_safe mem other.bucketCount).bind ?_
  rintro slots rfl
  have hocc := occupiedCount_le_length other.slots
  have hlen : other.bucketCount = other.slots.length := rfl
  have hload := ho.load
  obtain hzero | ⟨k, hk, hk', hcount⟩ := ho.buckets
  · omega
  obtain ⟨table, hrun, htable, hdel, hperm, hchain⟩ :=
    relocate_fresh other.slots hcount hk' (by omega)
  rw [hrun]
  refine safe_ok ⟨⟨hdel.symm, ?_, .inr ⟨k, hk, hk', htable.trans hcount⟩, ?_⟩, hperm, hchain⟩
  · exact (occupiedCount_eq_of_perm hperm).symm
  · have hsize' := ho.size
    change 4 * (occupiedCount other.slots + 0) ≤ 3 * table.length
    omega

theorem entries_eq_nil_of_size (hm : Loaded m) (hsize : ¬0 < m.size) : entries m.slots = [] := by
  refine length_eq_zero_iff.mp ?_
  rw [length_entries, ← hm.size]
  omega

theorem copy_safe [Hashable K] (mem : Memory) {other : UnorderedMap K V} (ho : Loaded other) :
    (copy mem other).Safe (fun m => Loaded m ∧ (entries m.slots).Perm (entries other.slots) ∧
      Chained m.slots) := by
  unfold copy
  split
  · next hsize => exact copied_safe mem ho hsize
  · next hsize =>
    refine safe_ok ⟨loaded_default, ?_, chained_of_no_entry fun i => .inl (by simp [slotAt])⟩
    rw [entries_eq_nil_of_size ho hsize]
    exact .refl _

theorem Loaded.of_find (hm : Loaded m) {idx : Nat} {k : K} {v : V}
    (hslot : slotAt m.slots idx = .occupied k v) (v' : V) :
    Loaded { m with slots := m.slots.set idx (.occupied k v') } := by
  have hidx : idx < m.slots.length := lt_length_of_slotAt_ne (by simp [hslot])
  obtain ⟨before, t, after, ht, hslots, hset⟩ := exists_split hidx
  rw [hslot] at ht
  have hdel := deletedCount_set hidx (.occupied k v')
  simp only [hslot, Slot.isDeleted, toNat_false] at hdel
  refine ⟨?_, ?_, ?_, ?_⟩
  · have := hm.tombstones
    simp only
    omega
  · simp only [hset]
    rw [hm.size, hslots, ← ht]
    simp [occupiedCount, countP_cons, Slot.isOccupied]
  · simpa [bucketCount] using hm.buckets
  · simpa [bucketCount] using hm.load

theorem Loaded.storeAt (hm : Loaded m) (idx : Nat) (val : V) : Loaded (m.storeAt idx val) := by
  unfold UnorderedMap.storeAt
  split
  · next k v hslot => exact hm.of_find hslot val
  · exact hm

theorem findSlotLoop_some [BEq K] {slots : List (Slot K V)} {key : K} {turns idx i : Nat}
    (h : findSlotLoop slots key turns idx = some i) :
    ∃ k v, slotAt slots i = .occupied k v ∧ (k == key) = true := by
  induction turns generalizing idx with
  | zero => simp [findSlotLoop] at h
  | succ turns ih =>
    unfold findSlotLoop at h
    split at h
    · cases h
    · exact ih h
    · next k v hslot =>
      split_ifs at h with hkey
      · obtain rfl : idx = i := by simpa using h
        exact ⟨k, v, hslot, hkey⟩
      · exact ih h

theorem findSlot_some [BEq K] [Hashable K] {key : K} {i : Nat} (h : m.findSlot key = some i) :
    ∃ k v, slotAt m.slots i = .occupied k v ∧ (k == key) = true := by
  unfold findSlot at h
  split_ifs at h
  exact findSlotLoop_some h

theorem Loaded.erase [BEq K] [Hashable K] (hm : Loaded m) (key : K) : Loaded (m.erase key).1 := by
  unfold UnorderedMap.erase
  split
  · exact hm
  · next i hfind =>
    obtain ⟨k, v, hslot, -⟩ := findSlot_some hfind
    have hi : i < m.slots.length := lt_length_of_slotAt_ne (by simp [hslot])
    have hdel := deletedCount_set hi .deleted
    have hocc := occupiedCount_set_deleted hslot
    have hload := hm.load
    have hlt := hm.bucketCount_lt
    have hsize := hm.size
    have htomb := hm.tombstones
    simp only [hslot, Slot.isDeleted, toNat_false, toNat_true] at hdel
    have hsub : wrapSub m.size 1 = m.size - 1 := wrapSub_of_le (by omega) (by omega)
    have hadd : wrapAdd m.tombstoneCount 1 = m.tombstoneCount + 1 := wrapAdd_of_lt (by omega)
    refine ⟨?_, ?_, ?_, ?_⟩
    · simp only [hadd]
      omega
    · simp only [hsub]
      omega
    · simpa [bucketCount] using hm.buckets
    · simp only [hsub, hadd, bucketCount, length_set] at hload ⊢
      omega

theorem deletedCount_clear (m : UnorderedMap K V) :
    deletedCount m.clear.slots = deletedCount m.slots := by
  simp only [clear, deletedCount, countP_map]
  refine countP_congr fun s _ => ?_
  cases s <;> simp [destroySlot, Slot.isDeleted]

theorem occupiedCount_clear (m : UnorderedMap K V) : occupiedCount m.clear.slots = 0 := by
  simp only [clear, occupiedCount, countP_map]
  refine countP_eq_zero.mpr fun s _ => ?_
  cases s <;> simp [destroySlot, Slot.isOccupied]

theorem Loaded.clear (hm : Loaded m) (hnone : deletedCount m.slots = 0) : Loaded m.clear where
  tombstones := ((deletedCount_clear m).trans hnone).symm
  size := (occupiedCount_clear m).symm
  buckets := by simpa [UnorderedMap.clear, bucketCount] using hm.buckets
  load := by simp [UnorderedMap.clear]

/-- The condition on a call: `clear` is called on a map without tombstones. -/
def ClearsNoTombstone (w : World ι K V) (call : Memory × Call ι K V) : Prop :=
  match call.2 with
  | .clear x => deletedCount (w x).slots = 0
  | _ => True

instance (w : World ι K V) (call : Memory × Call ι K V) : Decidable (ClearsNoTombstone w call) := by
  unfold ClearsNoTombstone
  split <;> infer_instance

theorem loaded_update [DecidableEq ι] {w : World ι K V} (hw : ∀ x, Loaded (w x)) (x : ι)
    (hm : Loaded m) : ∀ y, Loaded (update w x m y) := by
  intro y
  by_cases h : y = x
  · rw [h, update_self]
    exact hm
  · rw [update_of_ne h]
    exact hw y

theorem insertInto_safe [DecidableEq ι] {w : World ι K V} (hw : ∀ x, Loaded (w x)) (x : ι)
    {result : Outcome (UnorderedMap K V × Nat × Bool)} (hr : result.Safe (fun r => Loaded r.1)) :
    (insertInto w x result).Safe (fun r => ∀ y, Loaded (r.1 y)) :=
  hr.bind fun _ hm => safe_ok (loaded_update hw x hm)

section Runs

variable [DecidableEq ι] [BEq K] [Hashable K] [Inhabited V]

theorem exec_safe {w : World ι K V} (hw : ∀ x, Loaded (w x)) (call : Memory × Call ι K V)
    (hclear : ClearsNoTombstone w call) : (exec w call).Safe (fun r => ∀ x, Loaded (r.1 x)) := by
  have stolen : ∀ x y, ∀ z,
      Loaded (update (update w x (w y)) y movedFrom z) := fun x y =>
    loaded_update (loaded_update hw x (hw y)) y loaded_default
  obtain ⟨mem, call⟩ := call
  cases call with
  | construct x => exact safe_ok (loaded_update hw x loaded_default)
  | constructList x entries =>
    exact (ofList_safe mem entries).bind fun m hm => safe_ok (loaded_update hw x hm)
  | copyConstruct x y =>
    exact (copy_safe mem (hw y)).bind fun m hm => safe_ok (loaded_update hw x hm.1)
  | moveConstruct x y => exact safe_ok (stolen x y)
  | copyAssign x y =>
    simp only [exec]
    split
    · exact safe_ok hw
    · exact (copy_safe mem (hw y)).bind fun m hm => safe_ok (loaded_update hw x hm.1)
  | moveAssign x y =>
    simp only [exec]
    split
    · exact safe_ok hw
    · exact safe_ok (stolen x y)
  | subscript x key =>
    exact (subscript_safe mem (hw x) key).bind fun r hm => safe_ok (loaded_update hw x hm)
  | subscriptStore x key val =>
    exact (subscript_safe mem (hw x) key).bind fun r hm =>
      safe_ok (loaded_update hw x (hm.storeAt r.2 val))
  | find x key => exact safe_ok hw
  | contains x key => exact safe_ok hw
  | insert x key val => exact insertInto_safe hw x (insertSlot_safe mem (hw x) key val)
  | emplace x key val => exact insertInto_safe hw x (insertSlot_safe mem (hw x) key val)
  | tryEmplace x key val => exact insertInto_safe hw x (insertSlot_safe mem (hw x) key val)
  | erase x key => exact safe_ok (loaded_update hw x ((hw x).erase key))
  | clear x => exact safe_ok (loaded_update hw x ((hw x).clear hclear))
  | reserve x count =>
    exact (reserve_safe mem (hw x) count).bind fun m hm => safe_ok (loaded_update hw x hm.1)

theorem counters_safe (calls : List (Memory × Call ι K V))
    (hclear : Library.Calls.Guarded exec ClearsNoTombstone initial calls) :
    (run initial calls).Safe (fun r => ∀ x, Loaded (r.1 x)) := by
  have step : ∀ (w : World ι K V) call w' r, (∀ x, Loaded (w x)) → ClearsNoTombstone w call →
      exec w call = .ok (w', r) → ∀ x, Loaded (w' x) :=
    fun _ call _ _ hw hg hx => (exec_safe hw call hg).of_eq_ok hx
  have hhang := Library.Calls.run_avoids (fun w : World ι K V => ∀ x, Loaded (w x)) step
    (fun _ call hw hg => (exec_safe hw call hg).ne_hang) (fun _ => loaded_default) hclear
  refine (Outcome.safe_of_ne_hang hhang).mono fun r hr => ?_
  exact Library.Calls.run_invariant _ step (fun _ => loaded_default) hclear hr

/-- In a run that clears no map holding a tombstone, the counters agree with
the slots in the state reached, probing for an insertion ends, and no call of
the run hung. -/
theorem counters_consistent (calls : List (Memory × Call ι K V))
    (hclear : Library.Calls.Guarded exec ClearsNoTombstone initial calls) :
    run initial calls ≠ .error .hang ∧ ∀ w replies, run initial calls = .ok (w, replies) →
      ∀ x, Consistent (w x) ∧ ProbesEnd (w x) := by
  have hsafe := counters_safe calls hclear
  refine ⟨hsafe.ne_hang, fun w replies h x => ?_⟩
  have hloaded := hsafe.of_eq_ok h x
  exact ⟨hloaded.consistent, hloaded.probesEnd⟩

end Runs

section Counterexample

def ample : Memory := ⟨24, fun _ => true⟩

def onTable (call : Call Unit Nat Nat) : Memory × Call Unit Nat Nat := (ample, call)

def churn (key : Nat) : List (Memory × Call Unit Nat Nat) :=
  [onTable (.insert () key 10), onTable (.erase () key)]

def erasedThenCleared : List (Memory × Call Unit Nat Nat) := churn 1 ++ [onTable (.clear ())]

/-- Twelve tombstones that `clear` forgets to count, and four more fill the table. -/
def tombstoneFilled : List (Memory × Call Unit Nat Nat) :=
  (List.range 12).flatMap churn ++ [onTable (.clear ())] ++
    [12, 13, 14, 15].flatMap churn ++ [onTable (.insert () 16 10)]

/-- `clear` on a map with a tombstone leaves the counter at zero beside one
deleted slot, and enough such tombstones make the next insertion hang. -/
theorem clear_forgets_tombstones : (∃ w replies, run initial erasedThenCleared = .ok (w, replies) ∧
      (w ()).tombstoneCount = 0 ∧ deletedCount (w ()).slots = 1 ∧ ¬Consistent (w ())) ∧
    run initial tombstoneFilled = .error .hang := by
  refine ⟨⟨_, _, rfl, by decide, by decide, fun h => ?_⟩, by rfl⟩
  have htomb := h.tombstones
  revert htomb
  decide

/-- A run with erasures that clears only after a reserve has dropped the tombstones. -/
theorem counters_consistent_clearing :
    let calls := churn 1 ++ [onTable (.insert () 2 20), onTable (.reserve () 40), onTable (.clear ()),
      onTable (.insert () 3 30)]
    Library.Calls.Guarded exec ClearsNoTombstone initial calls ∧
      run initial calls ≠ .error .hang := by
  have hguard : Library.Calls.Guarded exec ClearsNoTombstone initial
      (churn 1 ++ [onTable (.insert () 2 20), onTable (.reserve () 40), onTable (.clear ()),
        onTable (.insert () 3 30)]) := by
    decide
  exact ⟨hguard, (counters_consistent _ hguard).1⟩

end Counterexample

end Equilibrium.UnorderedMap
