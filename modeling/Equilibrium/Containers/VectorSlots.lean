import Equilibrium.Containers.Vector
import Equilibrium.Library.Fallible
import Mathlib.Data.List.Induction

/-! The slots of a `Vector`: what each operation makes of them. -/

namespace Equilibrium.Vector

open AllocationSize Library.Fallible Library.SlotArray List

variable {α : Type} (e : Element α)

section Shifts

variable {f b : Slots α} {n i : ℕ}

theorem shiftUp_construct (ys : List α) {m : Slots α} (hlast : i = f.length + ys.length)
    (hcount : n = ys.length + m.length) : shiftUp e construct n ys.length i
        (f ++ (ys.map some ++ (m ++ (replicate ys.length none ++ b)))) =
      some (f ++ ((ys.map e.moved).map some ++ (m ++ (ys.map some ++ b)))) := by
  induction ys using reverseRecOn generalizing m b i with
  | nil => rfl
  | append_singleton zs y ih =>
    rw [length_append, length_singleton] at hlast hcount
    have hsource : f ++ ((zs ++ [y]).map some ++
          (m ++ (replicate (zs.length + 1) none ++ b))) =
        (f ++ zs.map some) ++ some y :: (m ++ (replicate zs.length none ++ none :: b)) := by
      simp [replicate_succ']
    have hdest : (f ++ zs.map some) ++
          some (e.moved y) :: (m ++ (replicate zs.length none ++ none :: b)) =
        (f ++ (zs.map some ++ (some (e.moved y) :: (m ++ replicate zs.length none)))) ++
          none :: b := by
      simp
    have hrest := ih (m := some (e.moved y) :: m) (b := some y :: b) (i := i - 1)
      (by omega) (by rw [length_cons]; omega)
    rw [length_append, length_singleton, shiftUp, hsource,
      moveOut_at (by rw [length_append, length_map]; omega)]
    change (construct _ _ y >>= fun _ => _) = _
    rw [hdest, construct_at (by simp; omega)]
    simpa using hrest

theorem shiftUp_assign (ys gap : List α) (hlast : i = f.length + ys.length)
    (hgap : gap.length = n) (hcount : 0 < n) : ∃ gap' : List α, gap'.length = n ∧
      shiftUp e assign n ys.length i (f ++ (ys.map some ++ (gap.map some ++ b))) =
        some (f ++ (gap'.map some ++ (ys.map some ++ b))) := by
  induction ys using reverseRecOn generalizing gap b i with
  | nil => exact ⟨gap, hgap, rfl⟩
  | append_singleton zs y ih =>
    rw [length_append, length_singleton] at hlast
    obtain ⟨front, u, rfl⟩ := eq_nil_or_concat gap |>.resolve_left
      (length_pos_iff.mp (by omega))
    rw [concat_eq_append, length_append, length_singleton] at hgap
    have hsource : f ++ ((zs ++ [y]).map some ++ ((front.concat u).map some ++ b)) =
        (f ++ zs.map some) ++ some y :: (front.map some ++ some u :: b) := by
      simp
    have hdest : (f ++ zs.map some) ++ some (e.moved y) :: (front.map some ++ some u :: b) =
        (f ++ (zs.map some ++ (e.moved y :: front).map some)) ++ some u :: b := by
      simp
    obtain ⟨gap', hlength, hrest⟩ := ih (e.moved y :: front)
      (i := i - 1) (by omega) (by rw [length_cons]; omega)
    refine ⟨gap', hlength, ?_⟩
    rw [length_append, length_singleton, shiftUp, hsource,
      moveOut_at (by rw [length_append, length_map]; omega)]
    change (assign _ _ y >>= fun _ => _) = _
    rw [hdest, assign_at (by simp; omega)]
    simpa using hrest

theorem shiftDown_eq (gap xs : List α) {i j : ℕ} (hdest : i = f.length)
    (hsrc : j = f.length + gap.length) (hgap : 0 < gap.length) :
    ∃ left : List α, left.length = gap.length ∧
      shiftDown e xs.length i j (f ++ (gap.map some ++ (xs.map some ++ b))) =
        some (f ++ (xs.map some ++ (left.map some ++ b))) := by
  induction xs generalizing f gap i j with
  | nil => exact ⟨gap, rfl, rfl⟩
  | cons x xs ih =>
    obtain ⟨g, gs, rfl⟩ := exists_cons_of_length_pos hgap
    have hsource : f ++ ((g :: gs).map some ++ ((x :: xs).map some ++ b)) =
        (f ++ (g :: gs).map some) ++ some x :: (xs.map some ++ b) := by
      simp
    have htarget : (f ++ (g :: gs).map some) ++ some (e.moved x) :: (xs.map some ++ b) =
        f ++ some g :: ((gs ++ [e.moved x]).map some ++ (xs.map some ++ b)) := by
      simp
    rw [length_cons] at hsrc
    obtain ⟨left, hlength, hrest⟩ := ih (f := f ++ [some x]) (gs ++ [e.moved x])
      (i := i + 1) (j := j + 1) (by simp; omega) (by simp; omega) (by simp)
    refine ⟨left, by simpa using hlength, ?_⟩
    rw [length_cons, shiftDown, hsource,
      moveOut_at (by rw [length_append, length_map, length_cons]; omega)]
    change (assign _ _ x >>= fun _ => _) = _
    rw [htarget, assign_at hdest]
    simpa using hrest

theorem makeHoleForInsert_eq (pre tail : List α) {k i : ℕ}
    (hend : i = pre.length + tail.length) (hroom : n ≤ k) :
    ∃ (hole : List α) (r : ℕ), hole.length = min n tail.length ∧ hole.length + r = n ∧
      makeHoleForInsert e (pre.map some ++ (tail.map some ++ replicate k none)) i
          pre.length n = some (pre.map some ++ (hole.map some ++ (replicate r none ++
          (tail.map some ++ replicate (k - n) none)))) := by
  have hmove : i - pre.length = tail.length := by omega
  rw [makeHoleForInsert, hmove]
  by_cases hnothing : tail.length = 0 ∨ n = 0
  · refine ⟨[], n, ?_, by simp, ?_⟩
    · rw [length_nil]; omega
    · rw [if_pos hnothing]
      cases hnothing with
      | inl hempty =>
        rw [length_eq_zero_iff.mp hempty]
        simp [Nat.add_sub_cancel' hroom]
      | inr hzero => simp [hzero]
  · rw [if_neg (by omega)]
    obtain ⟨front, back, rfl, hback⟩ : ∃ front back : List α, tail = front ++ back ∧
        back.length = min n tail.length :=
      ⟨tail.take (tail.length - min n tail.length),
        tail.drop (tail.length - min n tail.length), (take_append_drop _ _).symm, by
        rw [length_drop]; omega⟩
    rw [length_append] at hend hback hnothing ⊢
    have hk : replicate k (none : Option α) = replicate (n - back.length) none ++
        (replicate back.length none ++ replicate (k - n) none) := by
      rw [← replicate_add, ← replicate_add]
      congr 1
      omega
    have hfirst := shiftUp_construct e back (f := pre.map some ++ front.map some)
      (m := replicate (n - back.length) none) (b := replicate (k - n) none)
      (n := n) (i := i) (by simp; omega) (by simp; omega)
    have harray : pre.map some ++ ((front ++ back).map some ++ replicate k none) =
        (pre.map some ++ front.map some) ++ (back.map some ++
          (replicate (n - back.length) none ++
            (replicate back.length none ++ replicate (k - n) none))) := by
      rw [hk]
      simp
    rw [← hback, harray]
    dsimp only
    rw [hfirst]
    change ∃ hole r, _ ∧ _ ∧ shiftUp e assign n _ _ _ = _
    by_cases hfits : front.length + back.length ≤ n
    · have hnil : front = [] := length_eq_zero_iff.mp (by omega)
      subst hnil
      refine ⟨back.map e.moved, n - back.length, by simp, by simp; omega, ?_⟩
      rw [length_nil, Nat.zero_add, Nat.sub_self, shiftUp]
      simp
    · obtain ⟨gap, hlength, hsecond⟩ := shiftUp_assign e front (back.map e.moved)
        (f := pre.map some)
        (n := n) (i := i - back.length) (by simp; omega)
        (by rw [length_map]; omega) (by omega)
      refine ⟨gap, 0, by omega, by omega, ?_⟩
      have hcount : n - back.length = 0 := by omega
      rw [Nat.add_sub_cancel, hcount]
      simpa using hsecond

end Shifts

/-- The elements of the list are in the first slots of the block, and the others are raw. -/
structure Holds (v : Vector α) (xs : List α) : Prop where
  slots : v.slots = holding xs v.capacity
  size : v.size = xs.length

def Denied (granted : Bool) (cap : ℕ) : Prop := granted = false ∨ memSizeMax < cap * e.size

/-- The room that is asked for where there has to be more than `cap`. -/
def grown (cap : ℕ) : ℕ := if 0 < cap then cap * kDefaultMult else 1

theorem le_grown (cap : ℕ) : cap ≤ grown cap := by
  rw [grown]
  split
  case isTrue => exact Nat.le_mul_of_pos_right cap Nat.two_pos
  case isFalse h => omega

theorem lt_grown (cap : ℕ) : cap < grown cap := by
  rw [grown, kDefaultMult]
  split
  case isTrue => omega
  case isFalse => omega

theorem Denied.mono {granted : Bool} {cap cap' : ℕ} (h : Denied e granted cap) (hle : cap ≤ cap') :
    Denied e granted cap' :=
  h.imp_right fun hmax => Nat.lt_of_lt_of_le hmax (Nat.mul_le_mul_right e.size hle)

theorem denied_of_lt {granted : Bool} {cap : ℕ} (h : memSizeMax < cap) : Denied e granted cap :=
  .inr (Nat.lt_of_lt_of_le h (Nat.le_mul_of_pos_right cap e.size_pos))

section Storage

variable {v : Vector α} {xs ys : List α} {cap : ℕ}

section

variable (h : Holds v xs)
include h

theorem Holds.le : xs.length ≤ v.capacity := by
  have hlength := congrArg length h.slots
  rw [holding, length_append, length_map, length_replicate] at hlength
  rw [capacity] at hlength ⊢
  omega

theorem Holds.slots_eq : v.slots = xs.map some ++ replicate (v.capacity - xs.length) none := h.slots

theorem Holds.firstConstructed : FirstConstructed v.slots v.size := by
  rw [h.slots, h.size]
  exact firstConstructed_holding h.le

theorem Holds.reduceOption : v.slots.reduceOption = xs := by
  rw [h.slots, reduceOption_holding]

theorem Holds.read_eq (i : ℕ) : read v.slots i = xs[i]? := by
  rw [h.slots, read_holding]

end

theorem capacity_some (a : Slots α) (n : ℕ) : capacity ⟨some a, n⟩ = a.length := rfl

theorem holds_new : Holds (new : Vector α) [] := ⟨rfl, rfl⟩

theorem holds_block (h : xs.length ≤ cap) : Holds ⟨some (holding xs cap), xs.length⟩ xs :=
  ⟨by rw [capacity_some, length_holding h]; rfl, rfl⟩

theorem slots_withSlots {a : Slots α} (h : a.length = v.capacity) (n : ℕ) :
    (v.withSlots a n).slots = a := by
  obtain ⟨block, size⟩ := v
  cases block with
  | some block => rfl
  | none => exact (length_eq_zero_iff.mp h).symm

theorem capacity_withSlots {a : Slots α} (h : a.length = v.capacity) (n : ℕ) :
    (v.withSlots a n).capacity = v.capacity := by
  rw [capacity, slots_withSlots h, h]

theorem holds_withSlots {a : Slots α} {n : ℕ} (ha : a = holding ys v.capacity)
    (hn : n = ys.length) (h : ys.length ≤ v.capacity) : Holds (v.withSlots a n) ys := by
  have hlength : a.length = v.capacity := by rw [ha, length_holding h]
  exact ⟨by rw [slots_withSlots hlength, capacity_withSlots hlength, ha], hn⟩

theorem withSlots_withSlots (v : Vector α) (a a' : Slots α) (n n' : ℕ) :
    (v.withSlots a n).withSlots a' n' = v.withSlots a' n' := by
  obtain ⟨block, size⟩ := v
  cases block with
  | none => rfl
  | some block => rfl

theorem withSlots_self (v : Vector α) : v.withSlots v.slots v.size = v := by
  obtain ⟨block, size⟩ := v
  cases block with
  | none => rfl
  | some block => rfl

theorem checked_allocationSize (n factor : ℕ) :
    Returns .fatal (memSizeMax < n * factor) (fun bytes => bytes = n * factor)
      (checked (checkedAllocationSize n factor)) := by
  by_cases h : n * factor ≤ memSizeMax
  · rw [checkedAllocationSize_of_le h]
    exact rfl
  · rw [checkedAllocationSize_of_lt (Nat.lt_of_not_le h)]
    exact ⟨rfl, Nat.lt_of_not_le h⟩

theorem allocate_returns (granted : Bool) (cap : ℕ) :
    Returns .fatal (Denied e granted cap) (fun a => a = replicate cap none)
      (allocate e granted cap) := by
  refine ((checked_allocationSize cap e.size).imp .inr fun _ _ => trivial).bind fun _ _ => ?_
  cases granted with
  | true => exact rfl
  | false => exact ⟨rfl, .inl rfl⟩

theorem calculateNewCapacity_returns (cap : ℕ) :
    Returns .fatal (memSizeMax < grown cap) (fun newCap => newCap = grown cap)
      (calculateNewCapacity cap) := by
  rw [calculateNewCapacity, grown]
  split
  case isTrue => exact checked_allocationSize cap kDefaultMult
  case isFalse => exact rfl

section

variable (h : Holds v xs)
include h

theorem release_eq : release v = .ok () := by
  have hdestroy := destroyRange_eq xs (f := []) (i := 0)
    (b := replicate (v.capacity - xs.length) none) rfl
  rw [nil_append, ← h.slots_eq, ← h.size] at hdestroy
  rw [release, hdestroy]
  rfl

theorem moveElements_eq (b : Slots α) :
    moveElements e v (replicate xs.length none ++ b) = .ok (xs.map some ++ b) := by
  obtain ⟨block, size⟩ := v
  cases block with
  | none =>
    have hnil : xs = [] := length_eq_zero_iff.mp (Nat.le_zero.mp h.le)
    rw [hnil]
    rfl
  | some old =>
    obtain ⟨hslots, hsize⟩ := h
    change old = holding xs old.length at hslots
    have hmove := relocate_eq e.moved xs (f := []) (g := []) (i := 0) (c := b)
      (b := replicate (old.length - xs.length) none) rfl rfl
    have hdestroy := destroyRange_eq (xs.map e.moved) (f := []) (i := 0)
      (b := replicate (old.length - xs.length) none) rfl
    simp only [nil_append, length_map] at hmove hdestroy
    subst hsize
    rw [holding] at hslots
    change (step (relocate e.moved old _ 0 xs.length) >>= fun _ => _) = _
    rw [hslots, hmove]
    change (step (destroyRange _ 0 xs.length) >>= fun _ => _) = _
    rw [hdestroy]
    rfl

section

variable (hroom : xs.length ≤ cap)
include hroom

theorem growCapacity_returns (granted : Bool) :
    Returns .fatal (Denied e granted cap) (fun w => Holds w xs ∧ w.capacity = cap)
      (growCapacity e granted v cap) := by
  refine (allocate_returns e granted cap).bind ?_
  rintro _ rfl
  have hreplicate : replicate cap (none : Option α) =
      replicate xs.length none ++ replicate (cap - xs.length) none := by
    rw [← replicate_add, Nat.add_sub_cancel' hroom]
  rw [hreplicate, moveElements_eq e h, h.size]
  exact ⟨holds_block hroom, length_holding hroom⟩

theorem growWhen_returns (grows granted : Bool) (hgrows : grows = false → cap ≤ v.capacity) :
    Returns .fatal (grows = true ∧ Denied e granted cap)
      (fun w => Holds w xs ∧ cap ≤ w.capacity) (growWhen e grows granted v cap) := by
  cases grows with
  | true =>
    exact (growCapacity_returns e h hroom granted).imp (fun hdenied => ⟨rfl, hdenied⟩)
      fun w hw => ⟨hw.1, hw.2.ge⟩
  | false => exact ⟨h, hgrows rfl⟩

theorem growForWhen_returns (grows granted : Bool) (n : ℕ) (hn : n ≤ grown cap)
    (hgrows : grows = false → n ≤ v.capacity) :
    Returns .fatal (grows = true ∧ Denied e granted (grown cap))
      (fun w => Holds w xs ∧ n ≤ w.capacity) (growForWhen e grows granted v cap) := by
  cases grows with
  | true =>
    refine ((calculateNewCapacity_returns cap).imp
      (fun hmax => ⟨rfl, denied_of_lt e hmax⟩) fun _ => id).bind ?_
    rintro _ rfl
    exact (growCapacity_returns e h (hroom.trans (le_grown cap)) granted).imp
      (fun hdenied => ⟨rfl, hdenied⟩) fun w hw => ⟨hw.1, hn.trans hw.2.ge⟩
  | false => exact ⟨h, hgrows rfl⟩

end

theorem reserve_returns (n : ℕ) (granted : Bool) :
    Returns .fatal (v.capacity < n ∧ Denied e granted n) (fun w => Holds w xs)
      (reserve e granted v n) := by
  rw [reserve]
  split
  case isTrue => exact h
  case isFalse =>
    split
    case isTrue hlt =>
      exact (growCapacity_returns e h (h.le.trans hlt.le) granted).imp (fun hd => ⟨hlt, hd⟩)
        fun w hw => hw.1
    case isFalse => exact h

theorem clear_eq : ∃ w, clear v = .ok w ∧ Holds w [] ∧ w.capacity = v.capacity := by
  have hdestroy := destroyRange_eq xs (f := []) (i := 0)
    (b := replicate (v.capacity - xs.length) none) rfl
  rw [nil_append, ← h.slots_eq, ← h.size, nil_append, h.size, ← replicate_add,
    Nat.add_sub_cancel' h.le] at hdestroy
  refine ⟨v.withSlots (replicate v.capacity none) 0, ?_, ?_, ?_⟩
  · rw [clear, h.size, hdestroy]
    rfl
  · exact holds_withSlots rfl rfl (Nat.zero_le _)
  · exact capacity_withSlots length_replicate 0

theorem releaseAll_eq : ∃ w, releaseAll v = .ok w ∧ (xs = [] → Holds w xs) := by
  rw [releaseAll]
  split
  case isTrue =>
    rw [release_eq h]
    refine ⟨new, rfl, ?_⟩
    rintro rfl
    exact holds_new
  case isFalse => exact ⟨v, rfl, fun _ => h⟩

theorem shrinkToFit_returns (granted : Bool) :
    Returns .fatal (Denied e granted xs.length) (fun w => Holds w xs)
      (shrinkToFit e granted v) := by
  rw [shrinkToFit]
  split
  case isTrue => exact h
  case isFalse =>
    split
    case isTrue hzero =>
      obtain ⟨w, heq, hw⟩ := releaseAll_eq h
      rw [heq]
      exact hw (length_eq_zero_iff.mp (h.size ▸ hzero))
    case isFalse =>
      rw [h.size]
      refine (allocate_returns e granted xs.length).bind ?_
      rintro _ rfl
      have hmove := moveElements_eq e h []
      rw [append_nil, append_nil] at hmove
      have hholding : xs.map some = holding xs xs.length := by
        rw [holding, Nat.sub_self, replicate_zero, append_nil]
      rw [hmove, hholding]
      exact holds_block le_rfl

theorem popBack_eq (hpos : 0 < v.size) : ∃ w, popBack v = .ok w ∧ Holds w xs.dropLast := by
  obtain ⟨ys, y, rfl⟩ := eq_nil_or_concat xs |>.resolve_left
    (length_pos_iff.mp (h.size ▸ hpos))
  have hle := h.le
  rw [concat_eq_append] at h hle ⊢
  rw [length_append, length_singleton] at hle
  have hslots : v.slots = ys.map some ++
      some y :: replicate (v.capacity - (ys.length + 1)) none := by
    rw [h.slots_eq]
    simp
  have hsize : v.size = ys.length + 1 := by rw [h.size, length_append]; rfl
  rw [popBack, hslots, hsize, Nat.add_sub_cancel,
    destroy_at (by rw [length_map]), dropLast_concat]
  refine ⟨_, rfl, holds_withSlots ?_ rfl (by omega)⟩
  rw [holding, ← replicate_succ]
  congr 2
  omega

end

end Storage

section Contents

variable {v : Vector α} {xs ys : List α}

theorem place_behind (vs : List α) (hroom : xs.length + vs.length ≤ v.capacity)
    (h : Holds v xs) : place v.slots xs.length 0 vs = some (holding (xs ++ vs) v.capacity) := by
  have hplace := place_eq [] vs (f := xs.map some)
    (b := replicate (v.capacity - (xs.length + vs.length)) none)
    (by rw [length_map]) (by rw [length_nil, Nat.zero_add])
  rw [map_nil, nil_append, ← replicate_add, ← append_assoc,
    ← map_append, length_nil] at hplace
  have hraw : vs.length + (v.capacity - (xs.length + vs.length)) = v.capacity - xs.length := by
    omega
  rw [hraw, ← h.slots_eq, ← length_append] at hplace
  exact hplace

theorem copyInto_eq {src : Slots α} (hread : ∀ i < ys.length, read src i = ys[i]?) {f b : Slots α}
    {i : ℕ} (zs : List α) (hzs : zs = ys.drop i) (hi : i = f.length) :
    copyInto src (f ++ (replicate zs.length none ++ b)) i zs.length =
      some (f ++ (zs.map some ++ b)) := by
  induction zs generalizing f i with
  | nil => rfl
  | cons z zs ih =>
    have hlt : i < ys.length := by
      have hlength := congrArg length hzs
      rw [length_drop, length_cons] at hlength
      omega
    have hsplit := drop_eq_getElem_cons hlt
    obtain ⟨rfl, hrest⟩ := List.cons.inj (hzs.trans hsplit)
    have hnext := ih (f := f ++ [some ys[i]]) hrest
      (by rw [length_append, length_singleton, hi])
    rw [append_assoc, append_assoc] at hnext
    rw [length_cons, copyInto, hread i hlt, getElem?_eq_getElem hlt]
    change (construct _ i ys[i] >>= fun _ => _) = _
    rw [replicate_succ, cons_append, construct_at hi]
    exact hnext

theorem copyOf_returns (h : Holds v xs) (granted : Bool) :
    Returns .fatal (Denied e granted xs.length) (fun w => Holds w xs) (copyOf e granted v) := by
  rw [copyOf, h.size]
  split
  case isFalse hzero =>
    have hnil : xs = [] := length_eq_zero_iff.mp (by omega)
    rw [hnil]
    exact holds_new
  case isTrue =>
    refine (allocate_returns e granted xs.length).bind ?_
    rintro _ rfl
    have hread : ∀ i < xs.length, read v.slots i = xs[i]? := fun i _ => h.read_eq i
    have hcopy := copyInto_eq hread (f := []) (b := []) (i := 0) xs rfl rfl
    rw [append_nil, append_nil, nil_append, nil_append] at hcopy
    have hholding : xs.map some = holding xs xs.length := by
      rw [holding, Nat.sub_self, replicate_zero, append_nil]
    rw [hcopy, hholding]
    exact holds_block le_rfl

theorem ofValues_returns (values : List α) (granted : Bool) :
    Returns .fatal (Denied e granted values.length) (fun w => Holds w values)
      (ofValues e granted values) := by
  rw [ofValues]
  split
  case isFalse hzero =>
    have hnil : values = [] := length_eq_zero_iff.mp (by omega)
    rw [hnil]
    exact holds_new
  case isTrue =>
    refine (allocate_returns e granted values.length).bind ?_
    rintro _ rfl
    have hblock : Holds ⟨some (holding [] values.length), 0⟩ ([] : List α) :=
      holds_block (Nat.zero_le _)
    have hcapacity : capacity ⟨some (holding ([] : List α) values.length), 0⟩ = values.length :=
      length_holding (Nat.zero_le _)
    have hplace := place_behind values (by rw [hcapacity, length_nil, Nat.zero_add]) hblock
    rw [hcapacity] at hplace
    change place (replicate values.length none) 0 0 values = _ at hplace
    rw [hplace]
    exact holds_block le_rfl

theorem ofReserve_returns (reserveCount : ℕ) (kForData granted : Bool) :
    Returns .fatal (Denied e granted reserveCount)
      (fun w => Holds w (if kForData then replicate reserveCount e.fresh else []))
      (ofReserve e granted reserveCount kForData) := by
  cases kForData with
  | true =>
    have hvalues := ofValues_returns e (replicate reserveCount e.fresh) granted
    rw [length_replicate] at hvalues
    exact hvalues
  | false =>
    change Returns Fault.fatal _ (fun w => Holds w []) (if 0 < reserveCount then _ else _)
    split
    case isFalse => exact holds_new
    case isTrue =>
      refine (allocate_returns e granted reserveCount).bind ?_
      rintro _ rfl
      have hblock : Holds ⟨some (holding [] reserveCount), 0⟩ ([] : List α) :=
        holds_block (Nat.zero_le _)
      exact hblock

def resized (xs : List α) (newSize : ℕ) (value : α) : List α :=
  xs.take newSize ++ List.replicate (newSize - xs.length) value

theorem fillTo_returns (h : Holds v xs) {newSize : ℕ} (hlt : xs.length < newSize) (value : α)
    (granted : Bool) : Returns .fatal (v.capacity < newSize ∧ Denied e granted newSize)
      (fun w => Holds w (resized xs newSize value)) (fillTo e granted v newSize value) := by
  have hgrow := growWhen_returns e h hlt.le (decide (v.capacity < newSize)) granted
    fun hfalse => Nat.le_of_not_lt (of_decide_eq_false hfalse)
  refine Returns.bind (hgrow.imp (fun hdenied => ⟨of_decide_eq_true hdenied.1, hdenied.2⟩)
    fun _ => id) ?_
  rintro w ⟨hw, hroom⟩
  have hplace := place_behind (replicate (newSize - xs.length) value)
    (by rw [length_replicate]; omega) hw
  have htake : xs.take newSize = xs := take_of_length_le hlt.le
  rw [h.size, hplace, resized, htake]
  refine holds_withSlots rfl ?_ ?_
  · rw [length_append, length_replicate]; omega
  · rw [length_append, length_replicate]; omega

theorem shrinkTo_eq (h : Holds v xs) {newSize : ℕ} (hle : newSize ≤ xs.length) :
    ∃ w, shrinkTo v newSize = .ok w ∧ Holds w (xs.take newSize) := by
  have hroom := h.le
  have hlength : (xs.take newSize).length = newSize := length_take_of_le hle
  have hdestroy := destroyRange_eq (xs.drop newSize) (f := (xs.take newSize).map some)
    (b := replicate (v.capacity - xs.length) none)
    (by rw [length_map, hlength])
  rw [← append_assoc, ← map_append, take_append_drop, ← h.slots_eq,
    length_drop, ← replicate_add] at hdestroy
  rw [shrinkTo, h.size, hdestroy]
  refine ⟨_, rfl, holds_withSlots ?_ hlength.symm (by omega)⟩
  rw [holding, hlength]
  congr 2
  omega

theorem resized_of_le {newSize : ℕ} (h : newSize ≤ xs.length) (value : α) :
    resized xs newSize value = xs.take newSize := by
  rw [resized, Nat.sub_eq_zero_of_le h, replicate_zero, append_nil]

theorem resize_returns (h : Holds v xs) (newSize : ℕ) (granted : Bool) :
    Returns .fatal (v.capacity < newSize ∧ Denied e granted newSize)
      (fun w => Holds w (resized xs newSize e.fresh)) (resize e granted v newSize) := by
  rw [resize, h.size]
  split
  case isTrue hlt => exact fillTo_returns e h hlt e.fresh granted
  case isFalse hge =>
    have hle : newSize ≤ xs.length := Nat.le_of_not_lt hge
    rw [resized_of_le hle]
    split
    case isTrue =>
      obtain ⟨w, heq, hw⟩ := shrinkTo_eq h hle
      exact .of_eq heq hw
    case isFalse hge' =>
      rw [take_of_length_le (by omega)]
      exact h

theorem place_singleton (a : Slots α) (i assigned : ℕ) (value : α) : place a i assigned [value] =
      if 0 < assigned then assign a i value else construct a i value := by
  rw [place]
  split
  case isTrue => exact Option.bind_fun_some _
  case isFalse => exact Option.bind_fun_some _

theorem insert_eq (h : Holds v xs) {pos : ℕ} (hpos : pos ≤ xs.length) (vs : List α)
    (hroom : xs.length + vs.length ≤ v.capacity) :
    ∃ a, makeHoleForInsert e v.slots v.size pos vs.length = some a ∧ a.length = v.capacity ∧
      place a pos (min vs.length (v.size - pos)) vs =
        some (holding (xs.take pos ++ (vs ++ xs.drop pos)) v.capacity) := by
  have htake : (xs.take pos).length = pos := length_take_of_le hpos
  have hdrop : (xs.drop pos).length = xs.length - pos := length_drop
  obtain ⟨hole, r, hlength, hcount, hhole⟩ := makeHoleForInsert_eq e (xs.take pos) (xs.drop pos)
    (k := v.capacity - xs.length) (n := vs.length) (i := xs.length) (by omega) (by omega)
  have hplace := place_eq hole vs (f := (xs.take pos).map some)
    (b := (xs.drop pos).map some ++ replicate (v.capacity - xs.length - vs.length) none)
    (by rw [length_map, htake]) hcount.symm
  rw [← append_assoc, ← map_append, take_append_drop, ← h.slots_eq, htake] at hhole
  rw [hlength, hdrop] at hplace
  rw [h.size]
  refine ⟨_, hhole, ?_, ?_⟩
  · simp only [length_append, length_map, length_replicate]
    omega
  · rw [hplace, holding]
    simp only [map_append, append_assoc, length_append]
    congr 5
    omega

theorem insertValues_returns (h : Holds v xs) {pos : ℕ} (hpos : pos ≤ xs.length) (vs : List α)
    (hroom : xs.length + vs.length ≤ v.capacity) :
    ∃ a, makeHoleForInsert e v.slots v.size pos vs.length = some a ∧
      ∃ a', place a pos (min vs.length (v.size - pos)) vs = some a' ∧
        Holds (v.withSlots a' (v.size + vs.length)) (xs.take pos ++ (vs ++ xs.drop pos)) := by
  obtain ⟨a, hhole, -, hplace⟩ := insert_eq e h hpos vs hroom
  have hlength : (xs.take pos ++ (vs ++ xs.drop pos)).length = xs.length + vs.length := by
    simp only [length_append, length_take, length_drop]
    omega
  exact ⟨a, hhole, _, hplace, holds_withSlots rfl (by rw [h.size, hlength]) (hlength ▸ hroom)⟩

theorem eraseRange_eq (h : Holds v xs) {first last : ℕ} (hfirst : first ≤ last)
    (hlast : last ≤ xs.length) :
    ∃ w, eraseRange e v first last = .ok w ∧ Holds w (xs.take first ++ xs.drop last) := by
  rw [eraseRange]
  split
  case isTrue heq =>
    rw [heq, take_append_drop]
    exact ⟨v, rfl, h⟩
  case isFalse hne =>
    have hroom := h.le
    have htake : (xs.take first).length = first := length_take_of_le (hfirst.trans hlast)
    obtain ⟨gap, hgap, hmiddle⟩ : ∃ gap : List α, gap.length = last - first ∧
        xs.drop first = gap ++ xs.drop last := by
      refine ⟨(xs.drop first).take (last - first), ?_, ?_⟩
      · rw [length_take, length_drop]
        omega
      · have hsplit := take_append_drop (last - first) (xs.drop first)
        rw [drop_drop, Nat.add_sub_cancel' hfirst] at hsplit
        exact hsplit.symm
    have hslots : v.slots = (xs.take first).map some ++ (gap.map some ++
        ((xs.drop last).map some ++ replicate (v.capacity - xs.length) none)) := by
      rw [h.slots_eq]
      conv_lhs => rw [← take_append_drop first xs, hmiddle]
      simp [Nat.min_eq_left (hfirst.trans hlast), hgap]
      omega
    obtain ⟨left, hleft, hshift⟩ := shiftDown_eq e gap (xs.drop last)
      (f := (xs.take first).map some)
      (j := last)
      (by rw [length_map, htake]) (by rw [length_map, htake, hgap]; omega) (by omega)
    have hdestroy := destroyRange_eq left
      (f := (xs.take first).map some ++ (xs.drop last).map some)
      (b := replicate (v.capacity - xs.length) none)
      (by rw [length_append, length_map, length_map, htake, length_drop])
    have hlength : (xs.take first ++ xs.drop last).length = first + (xs.length - last) := by
      rw [length_append, htake, length_drop]
    rw [length_drop, ← hslots] at hshift
    rw [hleft, hgap, append_assoc, append_assoc, ← replicate_add] at hdestroy
    rw [h.size, hshift]
    change ∃ w, (step (destroyRange _ _ _) >>= fun _ => _) = _ ∧ _
    rw [hdestroy]
    refine ⟨_, rfl, holds_withSlots ?_ hlength.symm (by rw [hlength]; omega)⟩
    rw [holding, hlength, map_append, append_assoc]
    congr 3
    omega

theorem destroyRange_one (a : Slots α) (first : ℕ) : destroyRange a first 1 = destroy a first :=
  Option.bind_fun_some _

theorem eraseAt_of_eraseRange {pos : ℕ} (hlt : pos < v.size) {w : Vector α}
    (herase : eraseRange e v pos (pos + 1) = .ok w) : eraseAt e v pos = .ok (w, true) := by
  have hend : pos + (v.size - (pos + 1)) = v.size - 1 := by omega
  rw [eraseRange, if_neg (Nat.ne_of_lt (Nat.lt_succ_self pos)), hend, Nat.add_sub_cancel_left]
    at herase
  rw [eraseAt, if_neg (Nat.not_le.mpr hlt)]
  cases hshift : shiftDown e (v.size - (pos + 1)) pos (pos + 1) v.slots with
  | none =>
    rw [hshift] at herase
    cases herase
  | some a =>
    rw [hshift] at herase
    change (step (destroyRange a (v.size - 1) 1) >>= fun _ => _) = _ at herase
    change (step (destroy a (v.size - 1)) >>= fun _ => _) = _
    rw [destroyRange_one] at herase
    cases hdestroy : destroy a (v.size - 1) with
    | none =>
      rw [hdestroy] at herase
      cases herase
    | some a' =>
      rw [hdestroy] at herase
      cases herase
      rfl

theorem eraseAt_eq (h : Holds v xs) (pos : ℕ) :
    ∃ w, eraseAt e v pos = .ok (w, decide (pos < xs.length)) ∧ Holds w (xs.eraseIdx pos) := by
  by_cases hlt : pos < xs.length
  · obtain ⟨w, herase, hw⟩ := eraseRange_eq e h (Nat.le_succ pos) hlt
    rw [← eraseIdx_eq_take_drop_succ] at hw
    rw [decide_eq_true hlt]
    exact ⟨w, eraseAt_of_eraseRange e (h.size ▸ hlt) herase, hw⟩
  · have hle : xs.length ≤ pos := Nat.le_of_not_lt hlt
    rw [eraseAt, h.size, if_pos hle, decide_eq_false hlt, eraseIdx_of_length_le hle]
    exact ⟨v, rfl, h⟩

end Contents

end Equilibrium.Vector
