import Equilibrium.Containers.SimpleDequeRuns

/-! What the slots of a `SimpleDeque` hold outside of its elements. -/

namespace Equilibrium

open List Nat

namespace SimpleDeque

open AllocationSize Library.RingWindow
open Function (update update_self update_of_ne)
open Library.Fallible (bind_eq_ok)

variable {α : Type}

/-- No element is in the slot. -/
def Vacant (d : SimpleDeque α) (i : ℕ) : Prop := ∀ k < d.size, elementSlot d k ≠ i

section Slots

variable (e : Element α) {d d' : SimpleDeque α} {i k : ℕ} {v : α}

/-- The vacant slots are as `Grow` has made them. -/
def Clean (d : SimpleDeque α) : Prop := ∀ i v, d.slots[i]? = some v → Vacant d i → v = e.fresh

theorem clean_new : Clean e (new : SimpleDeque α) := fun _ _ h => absurd h nofun

/-- Only elements have other values. -/
structure Rewritten (d d' : SimpleDeque α) : Prop where
  frame : d' = { d with data := d'.data }
  stored : d'.data.isSome = d.data.isSome
  length : d'.slots.length = d.slots.length
  vacant : ∀ i, Vacant d i → d'.slots[i]? = d.slots[i]?

theorem Rewritten.refl (d : SimpleDeque α) : Rewritten d d := ⟨rfl, rfl, rfl, fun _ _ => rfl⟩

section

variable (h : Rewritten d d')
include h

theorem Rewritten.elementSlot : elementSlot d' = elementSlot d := by
  rw [h.frame]
  rfl

theorem Rewritten.size : d'.size = d.size := by
  rw [h.frame]

theorem Rewritten.vacant_iff : Vacant d' i ↔ Vacant d i := by
  rw [Vacant, Vacant, h.size, h.elementSlot]

theorem Rewritten.trans {d'' : SimpleDeque α} (h' : Rewritten d' d'') : Rewritten d d'' where
  frame := by
    rw [h'.frame, h.frame]
  stored := h'.stored.trans h.stored
  length := h'.length.trans h.length
  vacant := fun i hi => (h'.vacant i (h.vacant_iff.mpr hi)).trans (h.vacant i hi)

theorem Rewritten.ring (hd : Ring d) : Ring d' := by
  have hlength := h.length.trans hd.length
  have hnone : d.data = none → d'.data = none := by
    intro hnone
    refine Option.not_isSome_iff_eq_none.mp ?_
    rw [h.stored, hnone]
    exact Bool.false_ne_true
  obtain ⟨data', capacity', frontIndex', backIndex', size'⟩ := d'
  obtain ⟨rfl, rfl, rfl, rfl⟩ : capacity' = d.capacity ∧ frontIndex' = d.frontIndex ∧
    backIndex' = d.backIndex ∧ size' = d.size := by
    simpa using h.frame
  refine ⟨hlength, ?_, hd.size_le, hd.back_eq⟩
  obtain ⟨hempty, hzero⟩ | hsome := hd.storage
  · exact .inl ⟨hnone hempty, hzero⟩
  · exact .inr hsome

theorem Rewritten.clean (hd : Clean e d) : Clean e d' := by
  intro i v hv hi
  have hvacant := h.vacant_iff.mp hi
  exact hd i v ((h.vacant i hvacant).symm.trans hv) hvacant

end

theorem store_ok (h : store d i v = .ok d') :
    i < d.slots.length ∧ d' = { d with data := some (d.slots.set i v) } := by
  rw [store] at h
  split at h
  case isTrue hi => exact ⟨hi, (Except.ok.inj h).symm⟩
  case isFalse => cases h

theorem store_rewritten (hk : k < d.size) (h : store d (elementSlot d k) v = .ok d') :
    Rewritten d d' := by
  obtain ⟨hi, rfl⟩ := store_ok h
  refine ⟨rfl, ?_, length_set, fun i hvacant => ?_⟩
  · cases hdata : d.data with
    | none =>
      rw [slots, hdata] at hi
      cases hi
    | some slots => rfl
  · exact getElem?_set_ne (hvacant k hk)

theorem Ring.elementSlot_size (hd : Ring d) (hroom : d.size < d.capacity) :
    elementSlot d d.size = d.backIndex := by
  have hpos : 0 < d.capacity := by omega
  obtain ⟨k, hk, hcap⟩ := hd.power hpos
  have hdvd : d.capacity ∣ 2 ^ 64 := hcap ▸ Nat.pow_dvd_pow 2 hk.le
  rw [elementSlot, wrapAdd, mod_mod_of_dvd _ hdvd, hd.back_eq]

theorem placeBack_ok (h : placeBack d v = .ok d') : d'.slots = d.slots.set d.backIndex v ∧
    elementSlot d' = elementSlot d ∧ d'.size = d.size + 1 := by
  obtain ⟨d₁, hstore, heq⟩ := bind_eq_ok.mp h
  obtain ⟨-, rfl⟩ := store_ok hstore
  cases heq
  exact ⟨rfl, rfl, rfl⟩

theorem placeFront_ok (h : placeFront d v = .ok d') :
    d'.slots = d.slots.set (before d.capacity d.frontIndex) v ∧
      d'.frontIndex = before d.capacity d.frontIndex ∧ d'.size = d.size + 1 := by
  obtain ⟨d₁, hstore, heq⟩ := bind_eq_ok.mp h
  obtain ⟨-, rfl⟩ := store_ok hstore
  cases heq
  exact ⟨rfl, rfl, rfl⟩

/-- The stored element takes the place of a vacant slot. -/
def KeepsClean (place : SimpleDeque α → α → Except Fault (SimpleDeque α)) : Prop :=
  ∀ d d' v, Ring d → d.size < d.capacity → Clean e d → place d v = .ok d' → Clean e d'

theorem placeBack_clean : KeepsClean e placeBack := by
  intro d d' v hd hroom hclean h
  obtain ⟨hslots, hplaces, hsize⟩ := placeBack_ok h
  intro i w hw hvacant
  rw [Vacant, hsize, hplaces] at hvacant
  have hback : d.backIndex ≠ i := hd.elementSlot_size hroom ▸ hvacant d.size (lt_succ_self _)
  rw [hslots, getElem?_set_ne hback] at hw
  exact hclean i w hw fun k hk => hvacant k (lt_succ_of_lt hk)

theorem placeFront_clean : KeepsClean e placeFront := by
  intro d d' v hd hroom hclean h
  have hring : Ring d' := by
    obtain ⟨d₁, heq, hring, -⟩ := hd.placeFront_eq hroom v
    exact Except.ok.inj (heq.symm.trans h) ▸ hring
  have hfront : d.frontIndex < d.slots.length := hd.length ▸ hd.front_lt (by omega)
  obtain ⟨hslots, hfront', hsize⟩ := placeFront_ok h
  rw [← hd.length] at hslots hfront'
  have hlength : d'.slots.length = d.slots.length := by rw [hslots, length_set]
  intro i w hw hvacant
  have hplace : ∀ k ≤ d.size, (before d.slots.length d.frontIndex + k) % d.slots.length ≠ i := by
    intro k hk
    have hlt : k < d'.size := hsize ▸ lt_succ_of_le hk
    rw [← hfront', ← hlength, ← hring.elementSlot_eq hlt]
    exact hvacant k hlt
  have hfirst : before d.slots.length d.frontIndex ≠ i := by
    have hne := hplace 0 (Nat.zero_le _)
    rwa [Nat.add_zero, mod_eq_of_lt (before_lt hfront)] at hne
  rw [hslots, getElem?_set_ne hfirst] at hw
  refine hclean i w hw fun k hk => ?_
  rw [hd.elementSlot_eq hk, ← place_before hfront]
  exact hplace (k + 1) hk

end Slots

section Grow

variable (e : Element α) {d d' : SimpleDeque α} {granted : Bool}

theorem unroll_behind {oldCap turns i src j : ℕ} {data newData result : List α}
    (h : unroll e oldCap turns i src data newData = .ok result) (hj : i + turns ≤ j) :
    result[j]? = newData[j]? := by
  induction turns generalizing i src data newData with
  | zero =>
    cases h
    rfl
  | succ turns ih =>
    rw [unroll] at h
    split at h
    case h_1 => cases h
    case h_2 =>
      split at h
      case isTrue =>
        rw [ih h (by omega), getElem?_set_ne (by omega)]
      case isFalse => cases h

theorem newBlock_behind {newCapacity i : ℕ} {newData : List α} {v : α}
    (h : newBlock e d newCapacity = .ok newData) (hi : d.size ≤ i) (hv : newData[i]? = some v) :
    v = e.fresh := by
  have hfresh : (replicate newCapacity e.fresh)[i]? = some v := by
    rw [newBlock] at h
    split at h
    case isTrue => exact (unroll_behind e h (by omega)).symm.trans hv
    case isFalse =>
      cases h
      exact hv
  exact eq_of_mem_replicate (mem_of_getElem? hfresh)

theorem makeRoom_ok (hd : Ring d) (h : makeRoom e granted d = .ok d') :
    Ring d' ∧ contents d' = contents d ∧ d'.size < d'.capacity ∧
      (d.size ≠ d.capacity → d' = d) := by
  have hgranted : d.size = d.capacity → ¬Refused e granted d := by
    intro hfull hno
    rw [makeRoom_refused e hfull hno] at h
    cases h
  obtain ⟨d₁, heq, hring, hcontents, hroom, hsame⟩ := hd.makeRoom_eq e hgranted
  cases heq.symm.trans h
  exact ⟨hring, hcontents, hroom, hsame⟩

theorem makeRoom_clean (hd : Ring d) (hclean : Clean e d) (h : makeRoom e granted d = .ok d') :
    Clean e d' := by
  have hring := (makeRoom_ok e hd h).1
  rw [makeRoom] at h
  split at h
  case isFalse => exact Except.ok.inj h ▸ hclean
  case isTrue =>
    obtain ⟨newCapacity, -, hgrow⟩ := bind_eq_ok.mp h
    obtain ⟨bytes, -, hgrow⟩ := bind_eq_ok.mp hgrow
    split at hgrow
    case isFalse => cases hgrow
    case isTrue =>
      obtain ⟨newData, hblock, heq⟩ := bind_eq_ok.mp hgrow
      cases heq
      intro i v hv hvacant
      refine newBlock_behind e hblock (Nat.le_of_not_lt fun hi => hvacant i hi ?_) hv
      have hlt : i < newData.length := hi.trans_le hring.size_le_slots
      rw [hring.elementSlot_eq hi]
      change (0 + i) % newData.length = i
      rw [Nat.zero_add, mod_eq_of_lt hlt]

end Grow

section Removal

variable (e : Element α) {d : SimpleDeque α} {i : ℕ} {v : α}

theorem vacant_popFront (hd : Ring d) (hpos : 0 < d.size) :
    Vacant (popFront d) i ↔ Vacant d i ∨ elementSlot d 0 = i := by
  have hring := (hd.popFront hpos).1
  have hplace : ∀ k, k + 1 < d.size → elementSlot (popFront d) k = elementSlot d (k + 1) := by
    intro k hk
    rw [hring.elementSlot_eq (lt_sub_of_add_lt hk), hd.elementSlot_eq hk]
    change ((d.frontIndex + 1) % d.capacity + k) % d.slots.length = _
    rw [← hd.length, mod_add_mod, Nat.add_assoc, Nat.add_comm 1]
  constructor
  · intro h
    refine or_iff_not_imp_right.mpr fun hfirst k hk => ?_
    cases k with
    | zero => exact hfirst
    | succ k => exact hplace k hk ▸ h k (lt_sub_of_add_lt hk)
  · intro h k hk heq
    have hlt : k + 1 < d.size := add_lt_of_lt_sub hk
    rw [hplace k hlt] at heq
    obtain hvacant | hfirst := h
    · exact hvacant (k + 1) hlt heq
    · rw [← hfirst, hd.elementSlot_eq hlt, hd.elementSlot_eq hpos] at heq
      have hslots := hd.size_le_slots
      exact succ_ne_zero k (place_injective (by omega) (by omega) heq)

theorem vacant_popBack (hd : Ring d) (hpos : 0 < d.size) :
    Vacant (popBack d) i ↔ Vacant d i ∨ elementSlot d (d.size - 1) = i := by
  constructor
  · intro h
    refine or_iff_not_imp_right.mpr fun hlast k hk => ?_
    rcases Nat.lt_or_eq_of_le (le_sub_one_of_lt hk) with hless | rfl
    · exact h k hless
    · exact hlast
  · intro h k hk heq
    have hlt : k < d.size := lt_of_lt_pred hk
    change elementSlot d k = i at heq
    obtain hvacant | hlast := h
    · exact hvacant k hlt heq
    · have hend : d.size - 1 < d.size := Nat.sub_one_lt_of_lt hpos
      rw [← hlast, hd.elementSlot_eq hlt, hd.elementSlot_eq hend] at heq
      have hslots := hd.size_le_slots
      exact absurd (place_injective (by omega) (by omega) heq) hk.ne

theorem vacant_clear : Vacant (clear d) i := fun _ hk => absurd hk (Nat.not_lt_zero _)

theorem Ring.slot_contents (hd : Ring d) {k : ℕ} (hk : k < d.size) :
    d.slots[elementSlot d k]? = (contents d)[k]? := by
  rw [hd.elementSlot_eq hk, contents, getElem?_window hk hd.size_le_slots]

end Removal

section Calls

variable {ι : Type} [DecidableEq ι] (e : Element α) {s s' s₀ : World ι α} {x : ι}
  {d d' : SimpleDeque α} {freed : Option ι} {granted : Bool} {r : Reply α}

theorem clean_update (hs : ∀ z, Clean e (s z)) (hd : Clean e d) : ∀ z, Clean e (update s x d z) :=
  (Function.forall_update_iff s fun _ d => Clean e d).mpr ⟨hd, fun z _ => hs z⟩

theorem rewritten_update (h : Rewritten (s x) d) : ∀ z, Rewritten (s z) (update s x d z) :=
  (Function.forall_update_iff s fun z d => Rewritten (s z) d).mpr ⟨h, fun z _ => .refl (s z)⟩

section

variable (hkept : ∀ z, freed ≠ some z → Rewritten (s₀ z) (s z))
include hkept

theorem fetch_rewritten {arg : Argument ι α} {v : α} (hpresent : Legal.Present s₀ arg)
    (h : fetch e freed s (refer s₀ arg) = .ok (s', v)) : ∀ z, Rewritten (s z) (s' z) := by
  cases arg with
  | value w =>
    cases h
    exact fun z => .refl _
  | element y index moves =>
    rw [refer, fetch] at h
    split at h
    case isTrue => cases h
    case isFalse hne =>
      obtain ⟨w, -, h⟩ := bind_eq_ok.mp h
      cases moves with
      | false =>
        cases h
        exact fun z => .refl _
      | true =>
        obtain ⟨d, hstore, h⟩ := bind_eq_ok.mp h
        cases h
        rw [← (hkept y hne).elementSlot] at hstore
        have hindex : index < (s y).size := (hkept y hne).size ▸ hpresent
        exact rewritten_update (store_rewritten hindex hstore)

theorem fetchAll_rewritten {args : List (Argument ι α)} {vs : List α}
    (hpresent : ∀ arg ∈ args, Legal.Present s₀ arg)
    (h : fetchAll e freed s (args.map (refer s₀)) = .ok (s', vs)) :
    ∀ z, Rewritten (s z) (s' z) := by
  induction args generalizing s vs with
  | nil =>
    cases h
    exact fun z => .refl _
  | cons arg rest ih =>
    obtain ⟨⟨s₁, v⟩, hfetch, h⟩ := bind_eq_ok.mp h
    obtain ⟨⟨s₂, ws⟩, hrest, h⟩ := bind_eq_ok.mp h
    cases h
    have hfirst := fetch_rewritten e hkept (hpresent arg List.mem_cons_self) hfetch
    have hlater := ih (fun z hz => (hkept z hz).trans (hfirst z))
      (fun arg harg => hpresent arg (List.mem_cons_of_mem _ harg)) hrest
    exact fun z => (hfirst z).trans (hlater z)

end

theorem room_kept (hs : ∀ z, Ring (s z)) (h : makeRoom e granted (s x) = .ok d) :
    ∀ z, freedBy s x ≠ some z → Rewritten (s z) (update s x d z) := by
  intro z hz
  by_cases hzx : z = x
  · subst hzx
    rw [update_self, (makeRoom_ok e (hs z) h).2.2.2 fun hfull => hz (if_pos hfull)]
    exact .refl _
  · rw [update_of_ne hzx]
    exact .refl _

theorem place_clean {place : SimpleDeque α → α → Except Fault (SimpleDeque α)}
    (hplace : KeepsClean e place) (hs : ∀ z, Ring (s z)) (hclean : ∀ z, Clean e (s z))
    (hroom : makeRoom e granted (s x) = .ok d)
    {s₁ : World ι α} (hkept : ∀ z, Rewritten (update s x d z) (s₁ z)) {v : α}
    (hdone : place (s₁ x) v = .ok d') : ∀ z, Clean e (update s₁ x d' z) := by
  obtain ⟨hd, -, hlt, -⟩ := makeRoom_ok e (hs x) hroom
  have hrings := ring_update hs hd (x := x)
  have hcleans := clean_update e hclean (makeRoom_clean e (hs x) (hclean x) hroom) (x := x)
  refine clean_update e (fun z => (hkept z).clean e (hcleans z)) ?_
  refine hplace (s₁ x) d' v ((hkept x).ring (hrings x)) ?_ ((hkept x).clean e (hcleans x)) hdone
  rw [(hkept x).frame, update_self]
  exact hlt

theorem pushWith_clean {place : SimpleDeque α → α → Except Fault (SimpleDeque α)}
    (hplace : KeepsClean e place) (hs : ∀ z, Ring (s z)) (hclean : ∀ z, Clean e (s z))
    {arg : Argument ι α} (hpresent : Legal.Present s arg) (h : pushWith e place s x arg granted = .ok s') :
    ∀ z, Clean e (s' z) := by
  obtain ⟨d, hroom, h⟩ := bind_eq_ok.mp h
  obtain ⟨⟨s₁, v⟩, hfetch, h⟩ := bind_eq_ok.mp h
  obtain ⟨d', hdone, h⟩ := bind_eq_ok.mp h
  cases h
  have hkept := fetch_rewritten e (room_kept e hs hroom) hpresent hfetch
  exact place_clean e hplace hs hclean hroom hkept hdone

theorem emplaceBack_clean (hs : ∀ z, Ring (s z)) (hclean : ∀ z, Clean e (s z))
    {args : List (Argument ι α)} (hpresent : ∀ arg ∈ args, Legal.Present s arg)
    {build : List α → α} {v : α} (h : emplaceBack e s x args build granted = .ok (s', v)) :
    ∀ z, Clean e (s' z) := by
  obtain ⟨d, hroom, h⟩ := bind_eq_ok.mp h
  obtain ⟨⟨s₁, vs⟩, hfetch, h⟩ := bind_eq_ok.mp h
  obtain ⟨d', hdone, h⟩ := bind_eq_ok.mp h
  cases h
  have hkept := fetchAll_rewritten e (room_kept e hs hroom) hpresent hfetch
  exact place_clean e (placeBack_clean e) hs hclean hroom hkept hdone

/-- The elements that a call takes out of its deque. -/
def removed (s : World ι α) : Call ι α → List α
  | .popFront x => (contents (s x)).take 1
  | .popBack x => (contents (s x)).getLast?.toList
  | .clear x => contents (s x)
  | _ => []

omit [DecidableEq ι] in
theorem mem_contents_of_removed {c : Call ι α} {v : α} (h : v ∈ removed s c) :
    ∃ x, v ∈ contents (s x) := by
  cases c with
  | popFront x => exact ⟨x, mem_of_mem_take h⟩
  | popBack x => exact ⟨x, mem_of_getLast? (Option.mem_toList.mp h)⟩
  | clear x => exact ⟨x, h⟩
  | construct | moveConstruct | moveAssign | pushFront | pushBack | emplaceBack | read | write
  | iterate | empty | size => cases h

theorem removed_stays (hs : ∀ z, Ring (s z)) {c : Call ι α} (hlegal : Legal s c) {v : α}
    (hv : v ∈ removed s c) : ∃ s' r, exec e s c = .ok (s', r) ∧
      ∃ x i, (s' x).slots[i]? = some v ∧ Vacant (s' x) i := by
  cases c with
  | popFront x =>
    refine ⟨_, _, rfl, x, elementSlot (s x) 0, ?_⟩
    rw [update_self]
    refine ⟨?_, (vacant_popFront (hs x) hlegal).mpr (.inr rfl)⟩
    obtain ⟨k, hk⟩ := mem_iff_getElem?.mp hv
    rw [removed, getElem?_take] at hk
    split at hk
    case isTrue hfirst =>
      obtain rfl := lt_one_iff.mp hfirst
      exact ((hs x).slot_contents hlegal).trans hk
    case isFalse => cases hk
  | popBack x =>
    refine ⟨_, _, rfl, x, elementSlot (s x) ((s x).size - 1), ?_⟩
    rw [update_self]
    refine ⟨?_, (vacant_popBack (hs x) hlegal).mpr (.inr rfl)⟩
    have hlast := Option.mem_toList.mp hv
    rw [getLast?_eq_getElem?, (hs x).length_contents] at hlast
    exact ((hs x).slot_contents (Nat.sub_one_lt_of_lt hlegal)).trans hlast
  | clear x =>
    obtain ⟨k, hk⟩ := mem_iff_getElem?.mp hv
    have hlt : k < (s x).size := by
      rw [← (hs x).length_contents]
      exact (List.getElem?_eq_some_iff.mp hk).1
    refine ⟨_, _, rfl, x, elementSlot (s x) k, ?_⟩
    rw [update_self]
    exact ⟨((hs x).slot_contents hlt).trans hk, vacant_clear⟩
  | construct | moveConstruct | moveAssign | pushFront | pushBack | emplaceBack | read | write
  | iterate | empty | size => cases hv

/-- At most one more slot is vacant, and it holds a `T()`. -/
theorem clean_of_vacant_or {slot : ℕ} (hclean : Clean e d) (hslots : d'.slots = d.slots)
    (hvacant : ∀ i, Vacant d' i → Vacant d i ∨ slot = i)
    (hremoved : ∀ v, d.slots[slot]? = some v → v = e.fresh) : Clean e d' := by
  intro i v hv hi
  rw [hslots] at hv
  obtain hvacant | rfl := hvacant i hi
  · exact hclean i v hv hvacant
  · exact hremoved v hv

theorem clear_clean (hd : Ring d) (hclean : Clean e d) (hremoved : ∀ v ∈ contents d, v = e.fresh) :
    Clean e (clear d) := by
  intro i v hv _
  by_cases hvacant : Vacant d i
  · exact hclean i v hv hvacant
  · simp only [Vacant, not_forall, not_not] at hvacant
    obtain ⟨k, hk, rfl⟩ := hvacant
    exact hremoved v (mem_of_getElem? ((hd.slot_contents hk).symm.trans hv))

/-- Only a removal can leave something in a vacant slot. -/
theorem exec_clean (hs : ∀ z, Ring (s z)) (hclean : ∀ z, Clean e (s z)) {c : Call ι α}
    (hlegal : Legal s c) (hremoved : ∀ v ∈ removed s c, v = e.fresh)
    (h : exec e s c = .ok (s', r)) : ∀ z, Clean e (s' z) := by
  have hmoved : ∀ x y, ∀ z, Clean e (moveConstruct s x y z) := fun x y =>
    clean_update e (clean_update e hclean (hclean y)) (clean_new e)
  cases c with
  | construct x =>
    cases h
    exact clean_update e hclean (clean_new e)
  | moveConstruct x y =>
    cases h
    exact hmoved x y
  | moveAssign x y =>
    cases h
    rw [moveAssign]
    split
    case isTrue => exact hclean
    case isFalse => exact hmoved x y
  | pushFront x arg granted =>
    obtain ⟨s₁, hpush, h⟩ := bind_eq_ok.mp h
    cases h
    exact pushWith_clean e (placeFront_clean e) hs hclean hlegal hpush
  | pushBack x arg granted =>
    obtain ⟨s₁, hpush, h⟩ := bind_eq_ok.mp h
    cases h
    exact pushWith_clean e (placeBack_clean e) hs hclean hlegal hpush
  | emplaceBack x args build granted =>
    obtain ⟨⟨s₁, v⟩, hpush, h⟩ := bind_eq_ok.mp h
    cases h
    exact emplaceBack_clean e hs hclean hlegal hpush
  | popFront x =>
    cases h
    refine clean_update e hclean (clean_of_vacant_or e (hclean x) rfl
      (fun i => (vacant_popFront (hs x) hlegal).mp) fun v hv => hremoved v ?_)
    rw [(hs x).slot_contents hlegal] at hv
    exact mem_of_getElem? ((getElem?_take_of_lt Nat.one_pos).trans hv)
  | popBack x =>
    cases h
    refine clean_update e hclean (clean_of_vacant_or e (hclean x) rfl
      (fun i => (vacant_popBack (hs x) hlegal).mp) fun v hv => hremoved v ?_)
    rw [(hs x).slot_contents (Nat.sub_one_lt_of_lt hlegal), ← (hs x).length_contents,
      ← getLast?_eq_getElem?] at hv
    exact Option.mem_toList.mpr hv
  | clear x =>
    cases h
    exact clean_update e hclean (clear_clean e (hs x) (hclean x) hremoved)
  | read x place =>
    obtain ⟨v, -, h⟩ := bind_eq_ok.mp h
    cases h
    exact hclean
  | write x place v =>
    obtain ⟨d, hstore, h⟩ := bind_eq_ok.mp h
    cases h
    have hread : Legal s (.read x place) := by
      cases place <;> exact hlegal
    obtain ⟨hindex, hslot⟩ := place_behaves hs hread
    rw [hslot, ← (hs x).elementSlot_eq hindex] at hstore
    exact clean_update e hclean ((store_rewritten hindex hstore).clean e (hclean x))
  | iterate x =>
    obtain ⟨vs, -, h⟩ := bind_eq_ok.mp h
    cases h
    exact hclean
  | empty x =>
    cases h
    exact hclean
  | size x =>
    cases h
    exact hclean

end Calls

section Histories

variable {ι : Type} [DecidableEq ι] (e : Element α)

/-- What a call leaves in the elements that it moves its arguments from. -/
def leftovers (t : ι → List α) : List (Argument ι α) → List α
  | [] => []
  | .element y index true :: rest =>
    e.moved ((t y).getD index e.fresh) ::
      leftovers (specFetch e t (.element y index true)).1 rest
  | arg :: rest => leftovers (specFetch e t arg).1 rest

/-- The values that a call gives to elements: the one it pushes, one that is stored through a
reference, and what it has moved from. -/
def given (t : ι → List α) : Call ι α → List α
  | .pushFront _ arg _ | .pushBack _ arg _ => (specFetch e t arg).2 :: leftovers e t [arg]
  | .emplaceBack _ args build _ => build (specFetchAll e t args).2 :: leftovers e t args
  | .write _ _ v => [v]
  | _ => []

/-- The deques, and the values given to their elements so far. -/
abbrev History (ι α : Type) := World ι α × List α

def start : History ι α := (fun _ => new, [])

def record (h : History ι α) (c : Call ι α) : Except Fault (History ι α × Reply α) := do
  let (s, r) ← exec e h.1 c
  .ok ((s, given e (abs h.1) c ++ h.2), r)

/-- After the call no slot outside of the elements holds a value that was pushed, other than the
`T()` of an unused slot. -/
def Releases (h : History ι α) (c : Call ι α) : Prop :=
  ∀ h' r, record e h c = .ok (h', r) →
    ∀ x i v, (h'.1 x).slots[i]? = some v → Vacant (h'.1 x) i → v ∈ h'.2 → v = e.fresh

/-- The call removes nothing but elements that are `T()`. -/
def Harmless (h : History ι α) (c : Call ι α) : Prop := ∀ v ∈ removed h.1 c, v = e.fresh

instance [DecidableEq α] (h : History ι α) (c : Call ι α) : Decidable (Harmless e h c) :=
  inferInstanceAs (Decidable (∀ v ∈ removed h.1 c, v = e.fresh))

variable {e} {h h' : History ι α} {c : Call ι α} {r : Reply α} {t : ι → List α}
  {args : List (Argument ι α)} {v : α} {z : ι}

theorem record_ok (hx : record e h c = .ok (h', r)) :
    exec e h.1 c = .ok (h'.1, r) ∧ h'.2 = given e (abs h.1) c ++ h.2 := by
  obtain ⟨⟨s, r'⟩, hexec, heq⟩ := bind_eq_ok.mp hx
  cases heq
  exact ⟨hexec, rfl⟩

theorem record_of_exec {s : World ι α} (hexec : exec e h.1 c = .ok (s, r)) :
    record e h c = .ok ((s, given e (abs h.1) c ++ h.2), r) := by
  rw [record, hexec]
  rfl

theorem mem_update {x : ι} {xs : List α} (hv : v ∈ update t x xs z) : v ∈ t z ∨ v ∈ xs := by
  by_cases hzx : z = x
  · subst hzx
    rw [update_self] at hv
    exact .inr hv
  · rw [update_of_ne hzx] at hv
    exact .inl hv

theorem mem_specFetchAll (hv : v ∈ (specFetchAll e t args).1 z) :
    (∃ y, v ∈ t y) ∨ v ∈ leftovers e t args := by
  induction args generalizing t with
  | nil => exact .inl ⟨z, hv⟩
  | cons arg rest ih =>
    match arg with
    | .value _ => exact ih hv
    | .element _ _ false => exact ih hv
    | .element y index true =>
      obtain ⟨y', hy'⟩ | hrest := ih hv
      · obtain hold | hset := mem_update hy'
        · exact .inl ⟨y', hold⟩
        · obtain hold | rfl := mem_or_eq_of_mem_set hset
          · exact .inl ⟨y, hold⟩
          · exact .inr List.mem_cons_self
      · exact .inr (List.mem_cons_of_mem _ hrest)

theorem mem_specFetch {arg : Argument ι α} (hv : v ∈ (specFetch e t arg).1 z) :
    (∃ y, v ∈ t y) ∨ v ∈ leftovers e t [arg] := by
  have hall : v ∈ (specFetchAll e t [arg]).1 z := hv
  exact mem_specFetchAll hall

theorem mem_specExec (hv : v ∈ (specExec e t c).1 z) : (∃ y, v ∈ t y) ∨ v ∈ given e t c := by
  have hmoved : ∀ x y, v ∈ update (update t x (t y)) y [] z → ∃ y, v ∈ t y := by
    intro x y hv
    obtain hv | hnil := mem_update hv
    · exact (mem_update hv).elim (fun hv => ⟨z, hv⟩) fun hv => ⟨y, hv⟩
    · cases hnil
  cases c with
  | construct x => exact (mem_update hv).elim (fun hv => .inl ⟨z, hv⟩) nofun
  | moveConstruct x y => exact .inl (hmoved x y hv)
  | moveAssign x y =>
    change v ∈ (if x = y then t else update (update t x (t y)) y []) z at hv
    split at hv
    case isTrue => exact .inl ⟨z, hv⟩
    case isFalse => exact .inl (hmoved x y hv)
  | pushFront x arg granted =>
    obtain hv | hv := mem_update hv
    · exact (mem_specFetch hv).imp_right (List.mem_cons_of_mem _)
    · obtain rfl | hv := mem_cons.mp hv
      · exact .inr List.mem_cons_self
      · exact (mem_specFetch hv).imp_right (List.mem_cons_of_mem _)
  | pushBack x arg granted =>
    obtain hv | hv := mem_update hv
    · exact (mem_specFetch hv).imp_right (List.mem_cons_of_mem _)
    · obtain hv | hv := mem_append.mp hv
      · exact (mem_specFetch hv).imp_right (List.mem_cons_of_mem _)
      · exact .inr (mem_singleton.mp hv ▸ List.mem_cons_self)
  | emplaceBack x args build granted =>
    obtain hv | hv := mem_update hv
    · exact (mem_specFetchAll hv).imp_right (List.mem_cons_of_mem _)
    · obtain hv | hv := mem_append.mp hv
      · exact (mem_specFetchAll hv).imp_right (List.mem_cons_of_mem _)
      · exact .inr (mem_singleton.mp hv ▸ List.mem_cons_self)
  | popFront x =>
    exact .inl ((mem_update hv).elim (fun hv => ⟨z, hv⟩) fun hv => ⟨x, mem_of_mem_drop hv⟩)
  | popBack x =>
    exact .inl ((mem_update hv).elim (fun hv => ⟨z, hv⟩) fun hv => ⟨x, mem_of_mem_dropLast hv⟩)
  | clear x => exact (mem_update hv).elim (fun hv => .inl ⟨z, hv⟩) nofun
  | write x place w =>
    obtain hv | hv := mem_update hv
    · exact .inl ⟨z, hv⟩
    · obtain hv | rfl := mem_or_eq_of_mem_set hv
      · exact .inl ⟨x, hv⟩
      · exact .inr List.mem_cons_self
  | read | iterate | empty | size => exact .inl ⟨z, hv⟩

/-- Up to now the vacant slots are as `Grow` has made them. -/
structure Tidy (e : Element α) (h : History ι α) : Prop where
  rings : ∀ x, Ring (h.1 x)
  clean : ∀ x, Clean e (h.1 x)
  given : ∀ x, ∀ v ∈ contents (h.1 x), v ∈ h.2

omit [DecidableEq ι] in
theorem tidy_start : Tidy e (start : History ι α) where
  rings := fun _ => ring_new
  clean := fun _ => clean_new e
  given := fun _ v hv => by
    cases hv

theorem Tidy.releases_iff (hh : Tidy e h) (hlegal : Legal h.1 c) :
    Releases e h c ↔ Harmless e h c := by
  constructor
  · intro hreleases v hv
    obtain ⟨s', r, hexec, x, i, hslot, hvacant⟩ := removed_stays e hh.rings hlegal hv
    obtain ⟨y, hy⟩ := mem_contents_of_removed hv
    exact hreleases _ r (record_of_exec hexec) x i v hslot hvacant
      (mem_append_right _ (hh.given y v hy))
  · intro hharmless h' r hx x i v hslot hvacant _
    exact exec_clean e hh.rings hh.clean hlegal hharmless (record_ok hx).1 x i v hslot hvacant

theorem Tidy.step (hh : Tidy e h) (hlegal : Legal h.1 c) (hreleases : Releases e h c)
    (hx : record e h c = .ok (h', r)) : Tidy e h' := by
  obtain ⟨hexec, hgiven⟩ := record_ok hx
  have hbehaves := behaves_of_returns e hh.rings hlegal hexec
  rw [Behaves, hexec] at hbehaves
  obtain ⟨habs, -, hrings⟩ := hbehaves
  have hharmless := (hh.releases_iff hlegal).mp hreleases
  refine ⟨hrings, exec_clean e hh.rings hh.clean hlegal hharmless hexec, fun x v hv => ?_⟩
  rw [hgiven]
  obtain ⟨y, hy⟩ | hnew := mem_specExec (habs ▸ hv : v ∈ (specExec e (abs h.1) c).1 x)
  · exact mem_append_right _ (hh.given y v hy)
  · exact mem_append_left _ hnew

/-- Nothing that was pushed is kept, as long as nothing else than `T()` is removed. -/
theorem releases_iff_harmless {calls : List (Call ι α)}
    (hlegal : Library.Calls.Guarded (record e) (fun h => Legal h.1) start calls) :
    Library.Calls.Guarded (record e) (Releases e) start calls ↔
      Library.Calls.Guarded (record e) (Harmless e) start calls :=
  Library.Calls.guarded_congr (Tidy e) (fun _ _ hh hc => hh.releases_iff hc)
    (fun _ _ _ _ hh hc hreleases hx => hh.step hc hreleases hx) tidy_start hlegal

end Histories

end SimpleDeque

namespace Queue

variable {α ι : Type}

/-- The calls of `Queue` objects. -/
inductive Call (ι α : Type) where
  | construct (x : ι)
  | moveConstruct (x y : ι)
  | moveAssign (x y : ι)
  | push (x : ι) (arg : SimpleDeque.Argument ι α) (granted : Bool)
  | pop (x : ι)
  | front (x : ι)
  | back (x : ι)
  | assignFront (x : ι) (v : α)
  | assignBack (x : ι) (v : α)
  | empty (x : ι)
  | size (x : ι)

/-- What a call does on `deque_`. -/
def Call.onDeque : Call ι α → SimpleDeque.Call ι α
  | .construct x => .construct x
  | .moveConstruct x y => .moveConstruct x y
  | .moveAssign x y => .moveAssign x y
  | .push x arg granted => .pushBack x arg granted
  | .pop x => .popFront x
  | .front x => .read x .front
  | .back x => .read x .back
  | .assignFront x v => .write x .front v
  | .assignBack x v => .write x .back v
  | .empty x => .empty x
  | .size x => .size x

end Queue

namespace SimpleDeque

section Removals

variable {α ι : Type} [DecidableEq ι] (e : Element α)

/-- In every run of calls on deques or on queues, started with empty ones, the slots outside of the
elements keep nothing that was pushed exactly when all that is popped or cleared is `T()`. -/
theorem removals_release_iff (calls : List (Call ι α)) (queueCalls : List (Queue.Call ι α))
    (hlegal : Library.Calls.Guarded (record e) (fun h => Legal h.1) start calls)
    (hqueues : Library.Calls.Guarded (record e) (fun h => Legal h.1) start
      (queueCalls.map Queue.Call.onDeque)) :
    (Library.Calls.Guarded (record e) (Releases e) start calls ↔
      Library.Calls.Guarded (record e) (Harmless e) start calls) ∧
    (Library.Calls.Guarded (record e) (Releases e) start (queueCalls.map Queue.Call.onDeque) ↔
      Library.Calls.Guarded (record e) (Harmless e) start (queueCalls.map Queue.Call.onDeque)) :=
  ⟨releases_iff_harmless hlegal, releases_iff_harmless hqueues⟩

/-- Elements that own something as long as they are not 0; a move takes it. -/
def taken : Element ℕ := ⟨8, by decide, 0, fun _ => 0⟩

/-- A pushed and popped `T()`, and elements that are `T()` again when they are removed. -/
theorem removals_release_some :
    Library.Calls.Guarded (record taken) (Releases taken) (start : History Bool ℕ)
        [.pushBack true (.value 7) true, .pushFront true (.value 0) true, .popFront true,
          .pushBack false (.element true 0 true) true, .clear true] ∧
      Library.Calls.Guarded (record taken) (Releases taken) (start : History Bool ℕ)
        ([.push true (.value 7) true, .assignFront true 0, .pop true].map Queue.Call.onDeque) := by
  obtain ⟨hdeques, hqueues⟩ := removals_release_iff taken
    [.pushBack true (.value 7) true, .pushFront true (.value 0) true, .popFront true,
      .pushBack false (.element true 0 true) true, .clear true]
    [.push true (.value 7) true, .assignFront true 0, .pop true] (by decide +kernel)
    (by decide +kernel)
  exact ⟨hdeques.mpr (by decide +kernel), hqueues.mpr (by decide +kernel)⟩

/-- A popped element is still in its slot, whichever of the two it was popped from. -/
theorem popped_stays : (Library.Calls.Guarded (record taken) (fun h => Legal h.1) start
        [.pushBack () (.value 7) true, .popFront ()] ∧
      ¬Library.Calls.Guarded (record taken) (Releases taken) start
        [.pushBack () (.value 7) true, .popFront ()]) ∧
    (Library.Calls.Guarded (record taken) (fun h => Legal h.1) start
        ([.push () (.value 7) true, .pop ()].map Queue.Call.onDeque) ∧
      ¬Library.Calls.Guarded (record taken) (Releases taken) start
        ([.push () (.value 7) true, .pop ()].map Queue.Call.onDeque)) := by
  have hstays : ¬Library.Calls.Guarded (record taken) (Releases taken) start
      [.pushBack () (.value 7) true, .popFront ()] := by
    rintro ⟨-, h⟩
    obtain ⟨hpop, -⟩ := h _ _ rfl
    have hslot := hpop _ _ rfl () 0 7 rfl (fun k hk => absurd hk (Nat.not_lt_zero k))
      (by decide)
    cases hslot
  exact ⟨⟨by decide +kernel, hstays⟩, by decide +kernel, hstays⟩

end Removals

end SimpleDeque

end Equilibrium
