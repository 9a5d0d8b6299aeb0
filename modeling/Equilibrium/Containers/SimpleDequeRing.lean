import Equilibrium.Containers.SimpleDeque
import Equilibrium.Library.RingWindow

/-! The elements of a `SimpleDeque` as a window on its ring of slots. -/

namespace Equilibrium.SimpleDeque

open AllocationSize Library.RingWindow List Nat

variable {α : Type}

def contents (d : SimpleDeque α) : List α := window d.slots d.frontIndex d.size

/-- The indices of a deque with and without storage. -/
structure Ring (d : SimpleDeque α) : Prop where
  length : d.slots.length = d.capacity
  storage : d.data = none ∧ d.capacity = 0 ∧ d.frontIndex = 0 ∨
    (∃ k < 64, d.capacity = 2 ^ k) ∧ d.frontIndex < d.capacity
  size_le : d.size ≤ d.capacity
  back_eq : d.backIndex = (d.frontIndex + d.size) % d.capacity

section Places

variable {d : SimpleDeque α} {i : ℕ}

section

variable (hd : Ring d)
include hd

theorem Ring.size_le_slots : d.size ≤ d.slots.length := hd.length ▸ hd.size_le

theorem Ring.length_contents : (contents d).length = d.size :=
  length_window hd.size_le_slots

theorem Ring.front_lt (hpos : 0 < d.capacity) : d.frontIndex < d.capacity := by
  obtain ⟨-, hzero, -⟩ | ⟨-, hlt⟩ := hd.storage
  · omega
  · exact hlt

theorem Ring.power (hpos : 0 < d.capacity) : ∃ k < 64, d.capacity = 2 ^ k := by
  obtain ⟨-, hzero, -⟩ | ⟨hpower, -⟩ := hd.storage
  · omega
  · exact hpower

theorem Ring.elementSlot_eq (hi : i < d.size) :
    elementSlot d i = (d.frontIndex + i) % d.slots.length := by
  have hpos : 0 < d.capacity := Nat.lt_of_lt_of_le (by omega) hd.size_le
  obtain ⟨k, hk, hcap⟩ := hd.power hpos
  have hdvd : d.capacity ∣ 2 ^ 64 := hcap ▸ Nat.pow_dvd_pow 2 (Nat.le_of_lt hk)
  rw [elementSlot, wrapAdd, mod_mod_of_dvd _ hdvd, hd.length]

theorem Ring.backSlot_eq (hpos : 0 < d.size) :
    backSlot d = (d.frontIndex + (d.size - 1)) % d.slots.length := by
  have hcap : 0 < d.capacity := Nat.lt_of_lt_of_le hpos hd.size_le
  rw [hd.length, ← before_place hpos hcap, ← hd.back_eq]
  rfl

theorem Ring.frontSlot_eq (hpos : 0 < d.size) :
    d.frontIndex = (d.frontIndex + 0) % d.slots.length := by
  have hcap : 0 < d.capacity := Nat.lt_of_lt_of_le hpos hd.size_le
  rw [hd.length, Nat.add_zero, mod_eq_of_lt (hd.front_lt hcap)]

theorem Ring.access_eq (hi : i < d.size) (default : α) :
    access d ((d.frontIndex + i) % d.slots.length) = .ok ((contents d).getD i default) := by
  have hlength : i < (contents d).length := hd.length_contents ▸ hi
  have hget : (contents d)[i]? = d.slots[(d.frontIndex + i) % d.slots.length]? :=
    getElem?_window hi hd.size_le_slots
  rw [access, ← hget, getD_eq_getElem?_getD, getElem?_eq_getElem hlength]
  rfl

theorem Ring.store_eq (hi : i < d.size) (v : α) :
    ∃ d', store d ((d.frontIndex + i) % d.slots.length) v = .ok d' ∧ Ring d' ∧
      contents d' = (contents d).set i v ∧ d'.capacity = d.capacity ∧
      d'.frontIndex = d.frontIndex ∧ d'.size = d.size := by
  have hslots := hd.size_le_slots
  have hplace : (d.frontIndex + i) % d.slots.length < d.slots.length := place_lt (by omega)
  have hcap : 0 < d.capacity := Nat.lt_of_lt_of_le (by omega) hd.size_le
  refine ⟨_, if_pos hplace, ?_, window_set hi hslots, rfl, rfl, rfl⟩
  constructor
  case length => exact length_set.trans hd.length
  case storage => exact .inr ⟨hd.power hcap, hd.front_lt hcap⟩
  case size_le => exact hd.size_le
  case back_eq => exact hd.back_eq

end

end Places

theorem ring_new : Ring (new : SimpleDeque α) :=
  ⟨rfl, .inl ⟨rfl, rfl, rfl⟩, Nat.le_refl 0, rfl⟩

theorem contents_new : contents (new : SimpleDeque α) = [] := window_zero

section Ends

variable {d : SimpleDeque α}

section

variable (hd : Ring d)
include hd

theorem Ring.placeBack_eq (hroom : d.size < d.capacity) (v : α) :
    ∃ d', placeBack d v = .ok d' ∧ Ring d' ∧ contents d' = contents d ++ [v] := by
  have hslots : d.size < d.slots.length := hd.length ▸ hroom
  have hcap : 0 < d.capacity := by omega
  have hback : d.backIndex = (d.frontIndex + d.size) % d.slots.length := by
    rw [hd.back_eq, hd.length]
  have hstore : store d d.backIndex v =
      .ok { d with data := some (d.slots.set d.backIndex v) } := by
    refine if_pos ?_
    rw [hback]
    exact place_lt (by omega)
  refine ⟨_, by rw [placeBack, hstore]; rfl, ?_, ?_⟩
  · constructor
    case length => exact length_set.trans hd.length
    case storage => exact .inr ⟨hd.power hcap, hd.front_lt hcap⟩
    case size_le => exact hroom
    case back_eq =>
      rw [hd.back_eq, place_next]
  · change window (d.slots.set d.backIndex v) d.frontIndex (d.size + 1) = _
    rw [hback, window_set_behind hslots]
    rfl

theorem Ring.placeFront_eq (hroom : d.size < d.capacity) (v : α) :
    ∃ d', placeFront d v = .ok d' ∧ Ring d' ∧ contents d' = v :: contents d := by
  have hslots : d.size < d.slots.length := hd.length ▸ hroom
  have hcap : 0 < d.capacity := by omega
  have hfront : d.frontIndex < d.slots.length := hd.length ▸ hd.front_lt hcap
  have hbefore : (if d.frontIndex = 0 then d.capacity - 1 else d.frontIndex - 1) =
      before d.slots.length d.frontIndex := by
    rw [hd.length]
    rfl
  have hlt := before_lt hfront
  have hstore : store d (before d.slots.length d.frontIndex) v =
      .ok { d with data := some (d.slots.set (before d.slots.length d.frontIndex) v) } :=
    if_pos hlt
  refine ⟨_, by rw [placeFront, hbefore, hstore]; rfl, ?_, ?_⟩
  · constructor
    case length => exact length_set.trans hd.length
    case storage => exact .inr ⟨hd.power hcap, hd.length ▸ hlt⟩
    case size_le => exact hroom
    case back_eq =>
      rw [hd.back_eq, ← hd.length, place_before hfront]
  · exact window_set_before hslots hfront

theorem Ring.popFront (hpos : 0 < d.size) :
    Ring (popFront d) ∧ contents (SimpleDeque.popFront d) = (contents d).drop 1 := by
  have hcap : 0 < d.capacity := Nat.lt_of_lt_of_le hpos hd.size_le
  constructor
  · constructor
    case length => exact hd.length
    case storage => exact .inr ⟨hd.power hcap, mod_lt _ hcap⟩
    case size_le => exact Nat.le_trans (sub_le _ 1) hd.size_le
    case back_eq =>
      change d.backIndex = ((d.frontIndex + 1) % d.capacity + (d.size - 1)) % d.capacity
      rw [hd.back_eq, mod_add_mod, Nat.add_assoc, Nat.add_sub_cancel' hpos]
  · change window d.slots ((d.frontIndex + 1) % d.capacity) (d.size - 1) = _
    rw [← hd.length, window_drop_first hd.size_le_slots]
    rfl

theorem Ring.popBack (hpos : 0 < d.size) :
    Ring (popBack d) ∧ contents (SimpleDeque.popBack d) = (contents d).dropLast := by
  constructor
  · constructor
    case length => exact hd.length
    case storage => exact hd.storage
    case size_le => exact Nat.le_trans (sub_le _ 1) hd.size_le
    case back_eq => exact (hd.backSlot_eq hpos).trans (by rw [hd.length]; rfl)
  · exact window_drop_last hd.size_le_slots

theorem Ring.clear : Ring (clear d) ∧ contents (SimpleDeque.clear d) = [] := by
  refine ⟨?_, window_zero⟩
  constructor
  case length => exact hd.length
  case storage =>
    obtain ⟨hnone, hzero, -⟩ | ⟨⟨k, hk, hcap⟩, -⟩ := hd.storage
    · exact .inl ⟨hnone, hzero, rfl⟩
    · exact .inr ⟨⟨k, hk, hcap⟩, hcap ▸ Nat.two_pow_pos k⟩
  case size_le => exact Nat.zero_le _
  case back_eq => exact (zero_mod _).symm

theorem Ring.iterate : iterate d = .ok (contents d) := by
  have hstep : ∀ n ≤ d.size, (range n).mapM (fun index => access d (elementSlot d index)) =
      .ok ((contents d).take n) := by
    intro n hn
    induction n with
    | zero => rfl
    | succ n ih =>
      have hn' : n < (contents d).length := by rw [hd.length_contents]; omega
      rw [range_succ, mapM_append, ih (by omega), mapM_cons, mapM_nil,
        hd.elementSlot_eq hn, hd.access_eq hn (contents d)[n], take_succ_eq_append_getElem hn',
        getD_eq_getElem?_getD, getElem?_eq_getElem hn']
      rfl
  rw [SimpleDeque.iterate, hstep d.size (Nat.le_refl _), take_of_length_le]
  rw [hd.length_contents]

end

end Ends

section Grow

variable (e : Element α) {d : SimpleDeque α}

/-- After `i` turns the first `i` elements are in the new block, and those still to come are in
their old slots. -/
theorem unroll_eq {slots : List α} (start : ℕ) {n : ℕ} (hn : n ≤ slots.length) (turns : ℕ) :
    ∀ (i : ℕ) (data newData : List α), i + turns = n → data.length = slots.length →
      n ≤ newData.length → (∀ j, i ≤ j → j < n →
        data[(start + j) % slots.length]? = slots[(start + j) % slots.length]?) →
      (∀ j < i, newData[j]? = slots[(start + j) % slots.length]?) →
      ∃ result, unroll e slots.length turns i ((start + i) % slots.length) data newData =
          .ok result ∧ result.length = newData.length ∧
        ∀ j < n, result[j]? = slots[(start + j) % slots.length]? := by
  induction turns with
  | zero =>
    intro i data newData hi _ _ _ hdone
    exact ⟨newData, rfl, rfl, fun j hj => hdone j (by omega)⟩
  | succ turns ih =>
    intro i data newData hi hdata hroom hleft hdone
    have hpos : 0 < slots.length := by omega
    have hplace : (start + i) % slots.length < slots.length := place_lt hpos
    have hget : data[(start + i) % slots.length]? = some slots[(start + i) % slots.length] := by
      rw [hleft i (Nat.le_refl i) (by omega), getElem?_eq_getElem hplace]
    have hroom' : i < newData.length := by omega
    rw [unroll, hget]
    dsimp only
    rw [if_pos hroom', place_next]
    have hnext := ih (i + 1)
      (data.set ((start + i) % slots.length) (e.moved slots[(start + i) % slots.length]))
      (newData.set i slots[(start + i) % slots.length]) (by omega)
      (length_set.trans hdata) (by rw [length_set]; exact hroom) ?_ ?_
    · rw [length_set] at hnext
      exact hnext
    · intro j hij hj
      rw [getElem?_set, if_neg fun h => absurd (place_injective (by omega) (by omega) h)
        (by omega), hleft j (by omega) hj]
    · intro j hj
      rw [getElem?_set]
      by_cases hji : i = j
      · rw [if_pos hji, if_pos hroom', ← hji, getElem?_eq_getElem hplace]
      · rw [if_neg hji, hdone j (by omega)]

def nextCapacity (d : SimpleDeque α) : ℕ := if d.capacity = 0 then 4 else d.capacity * 2

/-- The allocator gives no block, or the block has more bytes than a `mem_size` can count. -/
def Refused (granted : Bool) (d : SimpleDeque α) : Prop :=
  granted = false ∨ memSizeMax < nextCapacity d * e.size

theorem grow_of_refused {granted : Bool} (h : Refused e granted d) :
    grow e granted d (nextCapacity d) = .error .fatal := by
  by_cases hfits : nextCapacity d * e.size ≤ memSizeMax
  · have hgranted : granted = false := by
      obtain hgranted | hlarge := h
      · exact hgranted
      · omega
    rw [grow, checkedAllocationSize_of_le hfits, hgranted]
    rfl
  · rw [grow, checkedAllocationSize_of_lt (by omega)]
    rfl

theorem Ring.grow_eq (hd : Ring d) (hroom : d.size < nextCapacity d)
    (hpower : ∃ k < 64, nextCapacity d = 2 ^ k) {granted : Bool} (h : ¬Refused e granted d) :
    ∃ d', grow e granted d (nextCapacity d) = .ok d' ∧ Ring d' ∧ contents d' = contents d ∧
      d'.size < d'.capacity := by
  rw [Refused, not_or, Bool.not_eq_false, Nat.not_lt] at h
  obtain ⟨rfl, hfits⟩ := h
  have hslots := hd.size_le_slots
  have hmoved : ∃ newData, newBlock e d (nextCapacity d) = .ok newData ∧
      newData.length = nextCapacity d ∧
        ∀ j < d.size, newData[j]? = d.slots[(d.frontIndex + j) % d.slots.length]? := by
    rw [newBlock]
    split
    case isTrue hsome =>
      have hfront : d.frontIndex = (d.frontIndex + 0) % d.slots.length :=
        hd.frontSlot_eq hsome.2
      obtain ⟨newData, hrun, hlength, hget⟩ := unroll_eq e d.frontIndex hslots d.size 0
        d.slots (replicate (nextCapacity d) e.fresh) (Nat.zero_add _) rfl
        (by rw [length_replicate]; omega) (fun _ _ _ => rfl)
        fun j hj => absurd hj (Nat.not_lt_zero j)
      rw [← hfront, hd.length] at hrun
      exact ⟨newData, hrun, hlength.trans length_replicate, hget⟩
    case isFalse hnone =>
      refine ⟨_, rfl, length_replicate, fun j hj => ?_⟩
      refine absurd ⟨?_, Nat.lt_of_le_of_lt (Nat.zero_le j) hj⟩ hnone
      cases hdata : d.data with
      | none =>
        rw [slots, hdata] at hslots
        exact absurd hj (by rw [le_zero.mp hslots]; exact Nat.not_lt_zero j)
      | some slots => rfl
  obtain ⟨newData, hrun, hlength, hget⟩ := hmoved
  refine ⟨⟨some newData, nextCapacity d, 0, d.size, d.size⟩, ?_, ?_, ?_, hroom⟩
  · rw [grow, checkedAllocationSize_of_le hfits, hrun]
    rfl
  · constructor
    case length => exact hlength
    case storage => exact .inr ⟨hpower, Nat.lt_of_le_of_lt (Nat.zero_le _) hroom⟩
    case size_le => exact Nat.le_of_lt hroom
    case back_eq =>
      rw [Nat.zero_add, mod_eq_of_lt hroom]
  · have hcontents : (contents d).length = d.size := hd.length_contents
    change window newData 0 d.size = contents d
    rw [← hcontents]
    refine window_front (by omega) fun j hj => ?_
    rw [hcontents] at hj
    rw [hget j hj, contents, getElem?_window hj hslots]

theorem Ring.makeRoom_eq (hd : Ring d) {granted : Bool}
    (h : d.size = d.capacity → ¬Refused e granted d) :
    ∃ d', makeRoom e granted d = .ok d' ∧ Ring d' ∧ contents d' = contents d ∧
      d'.size < d'.capacity ∧ (d.size ≠ d.capacity → d' = d) := by
  by_cases hfull : d.size = d.capacity
  · have hfits : nextCapacity d * e.size ≤ memSizeMax := by
      by_contra hlarge
      exact h hfull (.inr (by omega))
    have hnext : nextCapacity d ≤ memSizeMax :=
      Nat.le_trans (Nat.le_mul_of_pos_right _ e.size_pos) hfits
    have hcapacity : growTo d = .ok (nextCapacity d) := by
      rw [growTo]
      rw [nextCapacity] at hnext ⊢
      split
      case isTrue => rfl
      case isFalse hpos =>
        rw [if_neg hpos] at hnext
        rw [checkedCountProduct, checkedAllocationSize_of_le hnext]
        rfl
    have hroom : d.size < nextCapacity d := by
      rw [nextCapacity]
      split
      case isTrue => omega
      case isFalse => omega
    have hpower : ∃ k < 64, nextCapacity d = 2 ^ k := by
      rw [nextCapacity] at hnext ⊢
      split
      case isTrue => exact ⟨2, by decide, rfl⟩
      case isFalse hpos =>
        obtain ⟨k, hk, hcap⟩ := hd.power (by omega)
        rw [if_neg hpos, hcap, ← pow_succ] at hnext
        refine ⟨k + 1, ?_, by rw [hcap, pow_succ]⟩
        by_contra hge
        have hlast : k + 1 = 64 := by omega
        rw [hlast] at hnext
        exact absurd hnext (by decide)
    obtain ⟨d', hgrow, hring, hsame, hlt⟩ := hd.grow_eq e hroom hpower (h hfull)
    refine ⟨d', ?_, hring, hsame, hlt, fun hne => absurd hfull hne⟩
    rw [makeRoom, if_pos hfull, hcapacity]
    exact hgrow
  · have hlt : d.size < d.capacity := Nat.lt_of_le_of_ne hd.size_le hfull
    exact ⟨d, if_neg hfull, hd, rfl, hlt, fun _ => rfl⟩

theorem makeRoom_refused {granted : Bool} (hfull : d.size = d.capacity)
    (h : Refused e granted d) : makeRoom e granted d = .error .fatal := by
  rw [makeRoom, if_pos hfull]
  by_cases hzero : d.capacity = 0
  · have hnext : nextCapacity d = 4 := if_pos hzero
    rw [growTo, if_pos hzero, ← hnext]
    exact grow_of_refused e h
  · have hnext : nextCapacity d = d.capacity * 2 := if_neg hzero
    rw [growTo, if_neg hzero, checkedCountProduct]
    by_cases hfits : d.capacity * 2 ≤ memSizeMax
    · rw [checkedAllocationSize_of_le hfits, ← hnext]
      exact grow_of_refused e h
    · rw [checkedAllocationSize_of_lt (by omega)]
      rfl

end Grow

end Equilibrium.SimpleDeque
