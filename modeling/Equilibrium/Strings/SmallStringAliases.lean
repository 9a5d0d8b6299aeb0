import Equilibrium.Strings.SmallStringRuns

/-! `append` and `assign` of `BasicSmallString` with a part of the string itself. -/

namespace Equilibrium.SmallString

open Library Library.ByteMemory StringStorage Function List Option

section Calls

variable {ι : Type} [DecidableEq ι] {w N : ℕ}

inductive Call where
  | append
  | assign
  deriving DecidableEq

def Call.run (call : Call) (fresh : Fresh w) (W : World ι (layout w N)) (i : ι) (p : Ptr ι w)
    (n : ℕ) : Except Halt (World ι (layout w N)) :=
  match call with
  | .append => SmallString.append fresh W i p n
  | .assign => SmallString.assign fresh W i p n

def Call.size (call : Call) (cs : List (TChar w)) (n : ℕ) : ℕ :=
  match call with
  | .append => cs.length + n
  | .assign => n

/-- A byte of the object that is written when the heap mode is set up. -/
def Overwritten (w N : ℕ) (m : Bytes) (b : ℕ) : Prop :=
  ∃ data size capacity, setLarge w N m data size capacity b ≠ m b

/-- The call does with `n` characters of the string, from `start` on, what it does with a copy
of them. No storage that it freed is read, and where it leaves the inline buffer, no byte that
it wrote there. -/
structure LikeCopy (call : Call) (fresh : Fresh w) (W : World ι (layout w N)) (i : ι)
    (cs : List (TChar w)) (start n : ℕ) : Prop where
  same : call.run fresh W i ((Source.part i start).ptr W) n =
    call.run fresh W i (.chars ((cs.drop start).take n)) n
  safe : call.run fresh W i ((Source.part i start).ptr W) n ≠ .error .fault
  intact : ∀ W', growTo fresh W i (call.size cs n) = .ok W' → isLarge w N (W.obj i) = false →
    isLarge w N (W'.obj i) = true → ∀ b, w * start ≤ b → b < w * (start + n) →
      ¬ Overwritten w N (W.obj i) b

/-- An `append` does not have to grow, or cannot, or it leaves an inline buffer that holds the
part behind the fields of the heap mode; an `assign` copies from behind what it writes. -/
def Call.Clear (call : Call) (fresh : Fresh w) (W : World ι (layout w N)) (i : ι)
    (cs : List (TChar w)) (start n : ℕ) : Prop :=
  match call with
  | .append => n = 0 ∨ cs.length + n ≤ getCapacity w N (W.obj i) ∨
      Short (layout w N) fresh (cs.length + n) ∨ isLarge w N (W.obj i) = false ∧ 16 ≤ w * start
  | .assign => n = 0 ∨ n ≤ start

end Calls

section Growth

variable {ι : Type} [DecidableEq ι] {w N : ℕ} {W W' : World ι (layout w N)} {i : ι}
  {v v' : View w} {cs xs : List (TChar w)} {b k n start : ℕ} {p : Ptr ι w} {fresh : Fresh w}
  {m : Bytes} {strings : ι → Option (List (TChar w))}

omit [DecidableEq ι] in
theorem obj_of_check {r : Option (World ι (layout w N))} (h : check r = .ok W') : r = some W' := by
  cases r with
  | none => cases h
  | some W₁ =>
    injection h with h
    rw [h]

theorem obj_of_writeBlock {a : ℕ} (h : write W (.block a k) xs = some W') : W'.obj = W.obj := by
  obtain ⟨heap, -, rfl⟩ := map_eq_some_iff.mp h
  rfl

theorem obj_of_memCopyBlock {a : ℕ} (h : memCopy W (.block a k) p n = .ok W') : W'.obj = W.obj := by
  unfold memCopy at h
  split at h
  case isTrue => cases h
  case isFalse =>
    obtain ⟨xs, -, hwrite⟩ := bind_eq_some_iff.mp (obj_of_check h)
    exact obj_of_writeBlock hwrite

omit [DecidableEq ι] in
theorem obj_of_deallocateLarge (h : deallocateLarge W i = .ok W') : W'.obj = W.obj := by
  unfold deallocateLarge at h
  split at h
  case isTrue =>
    unfold freeBuffer at h
    split at h
    case isTrue =>
      obtain ⟨heap, -, rfl⟩ := map_eq_some_iff.mp (obj_of_check h)
      rfl
    case isFalse => cases h
  case isFalse =>
    injection h with h
    rw [h]

theorem ok_of_bind {α β : Type} {x : Except Halt α} {f : α → Except Halt β} {r : β}
    (h : x >>= f = .ok r) : ∃ a, x = .ok a ∧ f a = .ok r := by
  cases x with
  | error e => cases h
  | ok a => exact ⟨a, rfl, h⟩

omit [DecidableEq ι] in
theorem obj_of_allocateBuffer (h : allocateBuffer fresh W n = .ok W') : W'.obj = W.obj := by
  unfold allocateBuffer at h
  split at h
  case isTrue =>
    split at h
    case isTrue =>
      injection h with h
      rw [← h]
      rfl
    case isFalse => cases h
  case isFalse => cases h

theorem obj_of_growTo (h : growTo fresh W i n = .ok W') (hn : getCapacity w N (W.obj i) < n) :
    ∃ capacity, W'.obj i =
      setLarge w N (W.obj i) fresh.address (getSize w N (W.obj i)) capacity := by
  unfold growTo at h
  rw [if_neg (by omega)] at h
  split at h
  case isTrue =>
    simp only [reallocate] at h
    generalize (n + if n / 2 < kMaxCapacity - n then n / 2 else kMaxCapacity - n) = capacity at h
    obtain ⟨W₁, hallocate, h⟩ := ok_of_bind h
    obtain ⟨W₂, hcopy, h⟩ := ok_of_bind h
    obtain ⟨W₃, hwrite, h⟩ := ok_of_bind h
    obtain ⟨W₄, hfree, h⟩ := ok_of_bind h
    have hobj₁ := obj_of_allocateBuffer hallocate
    have hobj₂ : W₂.obj = W₁.obj := by
      split at hcopy
      case isTrue => exact obj_of_memCopyBlock hcopy
      case isFalse =>
        injection hcopy with hcopy
        rw [hcopy]
    have hobj₃ := obj_of_writeBlock (obj_of_check hwrite)
    have hobj₄ := obj_of_deallocateLarge hfree
    injection h with h
    refine ⟨capacity, ?_⟩
    have hself : (StringStorage.setLarge W₄ i fresh.address ((layout w N).getSize (W₁.obj i))
        capacity).obj i = setLarge w N (W₄.obj i) fresh.address (getSize w N (W₁.obj i))
          capacity := update_self _ _ _
    rw [← h, hself, hobj₄, hobj₃, hobj₂, hobj₁]
  case isFalse => cases h

theorem overwritten_of_lt (hb : b < 16) : Overwritten w N m b := by
  obtain ⟨-, -, hflag⟩ := offsets w N
  have hne : b ≠ isLargeOffset w N := by omega
  rcases Nat.lt_or_ge b 8 with hlt | hge
  · obtain ⟨v, hv⟩ := exists_store_ne (n := 8) (Nat.zero_le b) (by omega)
    refine ⟨v, 0, 0, ?_⟩
    rw [setLarge, setIsLarge_of_ne hne, store_of_outside (by omega), store_of_outside (by omega)]
    exact hv
  · have hdata : store m 8 0 0 b = m b := store_of_outside (by omega)
    rcases Nat.lt_or_ge b 12 with hlt | hge'
    · obtain ⟨v, hv⟩ := exists_store_ne (n := 4) hge (by omega)
      refine ⟨0, v, 0, ?_⟩
      rw [setLarge, setIsLarge_of_ne hne, store_of_outside (by omega), ← hdata]
      exact hv
    · have hsize : store (store m 8 0 0) 4 8 0 b = m b := by
        rw [store_of_outside (by omega), hdata]
      obtain ⟨v, hv⟩ := exists_store_ne (n := 4) hge' (by omega)
      refine ⟨0, 0, v, ?_⟩
      rw [setLarge, setIsLarge_of_ne hne, ← hsize]
      exact hv

theorem setLarge_of_ge (data size capacity : ℕ) (hb : 16 ≤ b) (hne : b ≠ isLargeOffset w N) :
    setLarge w N m data size capacity b = m b := by
  rw [setLarge, setIsLarge_of_ne hne, store_of_outside (by omega), store_of_outside (by omega),
    store_of_outside (by omega)]

theorem not_overwritten_of_ge (hb : 16 ≤ b) (hne : b ≠ isLargeOffset w N) :
    ¬ Overwritten w N m b := by
  rintro ⟨data, size, capacity, h⟩
  exact h (setLarge_of_ge data size capacity hb hne)

theorem read_inlineCells_setLarge (data size capacity : ℕ) (hstart : 16 ≤ w * start)
    (hn : start + n ≤ N + 1) :
    ArrayWrite.read (inlineCells (layout w N) (setLarge w N m data size capacity)) start n =
      ArrayWrite.read (inlineCells (layout w N) m) start n := by
  have hlength : ∀ m', (inlineCells (layout w N) m').length = N + 1 := length_inlineCells _
  rw [ArrayWrite.read, ArrayWrite.read, hlength, hlength, if_pos hn, if_pos hn]
  refine congrArg some (ext_getElem ?_ fun k hk hk' => ?_)
  · rw [length_take, length_take, length_drop, length_drop, hlength, hlength]
  · rw [length_take, length_drop, hlength] at hk
    simp only [getElem_take, getElem_drop, inlineCells, getElem_map,
      getElem_range]
    obtain ⟨hinline, hflag, -⟩ := offsets w N
    have hlow : w * start ≤ w * (start + k) := Nat.mul_le_mul_left w (Nat.le_add_right _ _)
    have hhigh : w * (start + k + 1) ≤ w * (N + 1) := Nat.mul_le_mul_left w (by omega)
    rw [Nat.mul_add_one] at hhigh
    refine Fin.ext (load_congr fun b hb hb' => setLarge_of_ge _ _ _ (by omega) (by omega))

theorem memCopy_eq_chars {q : Ptr ι w} (hread : read W p n = some xs)
    (hover : q.overlaps n p = false) : memCopy W q p n = memCopy W q (.chars xs) n := by
  have hlength := length_of_read hread
  have hchars : read W (.chars xs) n = some xs := by
    rw [StringStorage.read, ← hlength, ArrayWrite.read, Nat.zero_add, if_pos (Nat.le_refl _),
      drop_zero, take_length]
  have hover' : q.overlaps n (.chars xs) = false := by cases q <;> rfl
  rw [memCopy, memCopy, hover, hover', memMove, memMove, hread, hchars]

theorem append_congr {q : Ptr ι w} (h : ∀ W₁, (if cs.length + n > getCapacity w N (W.obj i) then
      growTo fresh W i (cs.length + n) else .ok W) = .ok W₁ →
        memCopy W₁ ((getData W₁ i).add cs.length) p n =
          memCopy W₁ ((getData W₁ i).add cs.length) q n)
    (hsize : getSize w N (W.obj i) = cs.length) : append fresh W i p n = append fresh W i q n := by
  unfold append
  split
  case isTrue => rfl
  case isFalse =>
    simp only [hsize]
    unfold checkedLengthSum
    split
    case isTrue =>
      cases hgrow : (if cs.length + n > getCapacity w N (W.obj i) then
        growTo fresh W i (cs.length + n) else .ok W) with
      | error e => simp only [bind, Except.bind, hgrow]
      | ok W₁ => simp only [bind, Except.bind, hgrow, h W₁ hgrow]
    case isFalse => rfl

theorem growTo_of_le (h : n ≤ getCapacity w N (W.obj i)) : growTo fresh W i n = .ok W := if_pos h

theorem growTo_of_short (hn : getCapacity w N (W.obj i) < n) (h : Short (layout w N) fresh n) :
    growTo fresh W i n = .error .fatal := by
  unfold growTo
  rw [if_neg (by omega)]
  by_cases hmax : n ≤ kMaxCapacity
  · have hnull : fresh.address = 0 := h.resolve_left (Nat.not_lt_of_le hmax)
    have hallocate : ∀ capacity, allocateBuffer fresh W capacity = .error .fatal := by
      intro capacity
      unfold allocateBuffer
      split
      case isTrue => exact if_neg (not_not.mpr hnull)
      case isFalse => rfl
    rw [if_pos hmax]
    simp only [reallocate, hallocate]
    rfl
  · rw [if_neg hmax]

theorem address_of_growTo (hvalid : fresh.Valid W) (hne : fresh.address ≠ 0)
    (hn : getCapacity w N (W.obj i) < n) (h : growTo fresh W i n = .ok W') :
    (layout w N).address (W'.obj i) = some fresh.address := by
  obtain ⟨capacity, hobj⟩ := obj_of_growTo h hn
  have hload : load (setLarge w N (W.obj i) fresh.address (getSize w N (W.obj i)) capacity) 8 0 =
      fresh.address := by
    rw [setLarge, load_setIsLarge (by obtain ⟨-, -, hflag⟩ := offsets w N; omega),
      load_store_of_disjoint (by omega), load_store_of_disjoint (by omega),
      load_store (hvalid hne).2]
  have hlarge : isLarge w N (W'.obj i) = true := by rw [hobj]; exact isLarge_setIsLarge
  have haddress : (layout w N).address (W'.obj i) = some (load (W'.obj i) 8 0) := if_pos hlarge
  rw [haddress, hobj, hload]

end Growth

section Independence

variable {ι : Type} [DecidableEq ι] {w N : ℕ} {W W' : World ι (layout w N)} {i : ι}
  {v : View w} {cs : List (TChar w)} {n start : ℕ} {fresh : Fresh w}

omit [DecidableEq ι] in
theorem ne_fault_of_yields {r : Except Halt (World ι (layout w N))} {reason : Prop}
    (h : Yields r W i v cs reason) : r ≠ .error .fault := by
  obtain ⟨hr, -⟩ | ⟨W', v', hr, -⟩ := h
  · rw [hr]
    exact fun heq => by cases heq
  · rw [hr]
    exact fun heq => by cases heq

theorem run_chars_ne_fault (hL : (layout w N).Lawful) (hshows : Shows W i v)
    (hkeeps : v.Keeps (layout w N) cs) (hvalid : fresh.Valid W) (call : Call)
    (hle : start + n ≤ cs.length) :
    call.run fresh W i (.chars ((cs.drop start).take n)) n ≠ .error .fault := by
  have hlength : ((cs.drop start).take n).length = n := by
    rw [length_take, length_drop]
    omega
  have hread : StringStorage.read W (.chars ((cs.drop start).take n)) n =
      some ((cs.drop start).take n) := by
    rw [StringStorage.read, ArrayWrite.read, if_pos (by omega), drop_zero,
      take_of_length_le (Nat.le_of_eq hlength)]
  have hmax : v.cells.length ≤ kMaxCapacity + 1 := hkeeps.length_le
  have hlt := hkeeps.holds.length_lt
  have hlimit : kMaxCapacity = kSizeMax - 1 := rfl
  cases call with
  | append =>
    exact ne_fault_of_yields (append_yields hL hshows hkeeps hvalid hread trivial (by omega))
  | assign => exact ne_fault_of_yields (assign_yields hL hshows hkeeps hvalid (.inr hread) trivial)

theorem assign_likeCopy_iff (hL : (layout w N).Lawful) (hshows : Shows W i v)
    (hkeeps : v.Keeps (layout w N) cs) (hvalid : fresh.Valid W) (hle : start + n ≤ cs.length) :
    LikeCopy .assign fresh W i cs start n ↔ n = 0 ∨ n ≤ start := by
  have hcapacity : v.cells.length = getCapacity w N (W.obj i) + 1 := hshows.capacity
  have hlt := hkeeps.holds.length_lt
  have hroom : n ≤ getCapacity w N (W.obj i) := by omega
  have hread := hshows.read_chars hkeeps hle
  have hsafe := run_chars_ne_fault hL hshows hkeeps hvalid .assign hle
  have hnull : (((getData W i).add start).isNull = true ∨ n = 0) ↔ n = 0 := by
    rw [hshows.getData]
    refine or_iff_right ?_
    obtain hv | ⟨a, hv⟩ := eq_none_or_eq_some v.address
    · rw [hv]
      exact Bool.false_ne_true
    · rw [hv]
      exact Bool.false_ne_true
  -- nothing grows, so the copy is from the string as it is
  have hrun : ∀ p : Ptr ι w, ¬ (p.isNull = true ∨ n = 0) → assign fresh W i p n =
      (memCopy W (getData W i) p n >>= fun W => finish W i n) := by
    intro p hp
    unfold assign
    rw [if_neg hp, if_neg (by omega)]
    rfl
  have hintact : ∀ W', growTo fresh W i (Call.size .assign cs n) = .ok W' →
      isLarge w N (W.obj i) = false → isLarge w N (W'.obj i) = true → False := by
    intro W' hgrow hinline hlarge
    rw [Call.size, growTo_of_le hroom] at hgrow
    injection hgrow with hgrow
    rw [← hgrow, hinline] at hlarge
    exact Bool.false_ne_true hlarge
  have hiff : LikeCopy .assign fresh W i cs start n ↔ assign fresh W i ((getData W i).add start) n =
        assign fresh W i (.chars ((cs.drop start).take n)) n := by
    exact ⟨fun h => h.same, fun h => ⟨h, fun hfault => hsafe (h.symm.trans hfault),
      fun W' hgrow hinline hlarge => (hintact W' hgrow hinline hlarge).elim⟩⟩
  rw [hiff]
  by_cases hzero : n = 0
  · refine iff_of_true ?_ (.inl hzero)
    unfold assign
    rw [if_pos (.inr hzero), if_pos (.inr hzero)]
  · rw [or_iff_right hzero, hrun _ (mt hnull.mp hzero),
      hrun (.chars _) (not_or.mpr ⟨Bool.false_ne_true, hzero⟩)]
    have hover : (getData W i).overlaps n ((getData W i).add start) = decide (start < n) := by
      rw [hshows.getData]
      obtain hv | ⟨a, hv⟩ := eq_none_or_eq_some v.address
      · rw [hv]
        simp only [elim_none, Ptr.add, Ptr.overlaps]
        exact decide_eq_decide.mpr ⟨fun h => by omega, fun h => ⟨trivial, by omega, by omega⟩⟩
      · rw [hv]
        simp only [elim_some, Ptr.add, Ptr.overlaps]
        exact decide_eq_decide.mpr ⟨fun h => by omega, fun h => ⟨trivial, by omega, by omega⟩⟩
    by_cases hstart : n ≤ start
    · refine iff_of_true ?_ hstart
      rw [memCopy_eq_chars hread (by rw [hover]; exact decide_eq_false (by omega))]
    · refine iff_of_false (fun heq => ?_) hstart
      have hfault : memCopy W (getData W i) ((getData W i).add start) n = .error .fault := by
        rw [memCopy, hover, decide_eq_true (by omega)]
        rfl
      rw [← hrun (.chars _) (not_or.mpr ⟨Bool.false_ne_true, hzero⟩), hfault] at heq
      exact hsafe heq.symm

theorem append_eq_of_grows {p : Ptr ι w} (hn : n ≠ 0) (hsize : getSize w N (W.obj i) = cs.length)
    (hsum : cs.length + n ≤ kSizeMax) (hfull : getCapacity w N (W.obj i) < cs.length + n)
    (hgrow : growTo fresh W i (cs.length + n) = .ok W') :
    append fresh W i p n = (memCopy W' ((getData W' i).add cs.length) p n >>= fun W =>
      finish W i (cs.length + n)) := by
  have hchecked : checkedLengthSum (layout w N) cs.length n = .ok (cs.length + n) :=
    if_pos (show cs.length ≤ kSizeMax - n by omega)
  unfold append
  rw [if_neg hn]
  simp only [hsize, hchecked]
  simp only [bind, Except.bind, if_pos hfull, hgrow]

/-- Growth takes the storage of a part on the heap, and the start of the inline buffer. -/
theorem append_likeCopy_of_grows (hL : (layout w N).Lawful) (hshows : Shows W i v)
    (hkeeps : v.Keeps (layout w N) cs) (hvalid : fresh.Valid W) (hle : start + n ≤ cs.length)
    (hn : n ≠ 0) (hfull : getCapacity w N (W.obj i) < cs.length + n)
    (hshort : ¬ Short (layout w N) fresh (cs.length + n)) : LikeCopy .append fresh W i cs start n ↔
      isLarge w N (W.obj i) = false ∧ 16 ≤ w * start := by
  have hsize : getSize w N (W.obj i) = cs.length := hshows.size.trans hkeeps.size
  have hmax : cs.length + n ≤ kMaxCapacity := Nat.le_of_not_lt fun h => hshort (.inl h)
  have hsum : cs.length + n ≤ kSizeMax := Nat.le_trans hmax (Nat.sub_le _ _)
  have hne : fresh.address ≠ 0 := fun h => hshort (.inr h)
  have hread := hshows.read_chars hkeeps hle
  have hsafe := run_chars_ne_fault hL hshows hkeeps hvalid .append hle
  obtain ⟨-, hno⟩ | ⟨W₁, v₁, hgrow, hchanges, -, -⟩ :=
    growTo_grows hL hshows hkeeps hvalid
  · exact absurd hno hshort
  obtain ⟨capacity, hobj⟩ := obj_of_growTo hgrow hfull
  have haddress := address_of_growTo hvalid hne hfull hgrow
  have hlarge : isLarge w N (W₁.obj i) = true := by rw [hobj]; exact isLarge_setIsLarge
  have hdata : getData W₁ i = .block fresh.address 0 := by
    rw [hchanges.shows.getData, ← hchanges.shows.address, haddress]
    rfl
  have hrun (p : Ptr ι w) := append_eq_of_grows (p := p) hn hsize hsum hfull hgrow
  obtain hv | ⟨a, hv⟩ := eq_none_or_eq_some v.address
  · have hinline : isLarge w N (W.obj i) = false := hshows.isLarge_none hv
    have hown : (getData W i).add start = .inline i start := by
      rw [hshows.getData, hv, elim_none, Ptr.add, Nat.zero_add]
    constructor
    · intro h
      refine ⟨hinline, Nat.le_of_not_lt fun hlt => ?_⟩
      have hmul : w * start < w * (start + n) :=
        Nat.mul_lt_mul_of_pos_left (by omega) hL.width_pos
      exact h.intact W₁ hgrow hinline hlarge (w * start) (Nat.le_refl _) hmul
        (overwritten_of_lt hlt)
    · rintro ⟨-, hstart⟩
      have hcapacity : v.cells.length = N + 1 := by
        rw [hshows.capacity]
        exact congrArg (· + 1) (hL.capacity_inline _ hinline)
      have hlt := hkeeps.holds.length_lt
      have hsame : append fresh W i ((getData W i).add start) n =
          append fresh W i (.chars ((cs.drop start).take n)) n := by
        have hread₁ : StringStorage.read W₁ (.inline i start) n =
            some ((cs.drop start).take n) := by
          rw [hown] at hread
          rw [StringStorage.read, hobj, read_inlineCells_setLarge _ _ _ hstart (by omega)]
          exact hread
        rw [hrun, hrun, hown, hdata, memCopy_eq_chars hread₁ rfl]
      refine ⟨hsame, fun hfault => hsafe (hsame.symm.trans hfault), ?_⟩
      intro W' _ _ _ b hb hb'
      have hmul : w * (start + n) ≤ w * (N + 1) := Nat.mul_le_mul_left w (by omega)
      obtain ⟨hchars, hflag, -⟩ := offsets w N
      exact not_overwritten_of_ge (by omega) (by omega)
  · have hheap : isLarge w N (W.obj i) = true := (hshows.isLarge_some hv).1
    refine iff_of_false (fun h => h.safe ?_) fun h => Bool.false_ne_true (h.1.symm.trans hheap)
    have hother : fresh.address ≠ a := by
      intro heq
      have hnone := (hvalid hne).1
      rw [heq, hshows.block a hv] at hnone
      cases hnone
    have hfreed : W₁.heap a = none := by
      refine hchanges.freed a hv ?_
      rw [← hchanges.shows.address, haddress]
      exact fun heq => hother (Option.some.inj heq)
    have hown : (getData W i).add start = .block a start := by
      rw [hshows.getData, hv, elim_some, Ptr.add, Nat.zero_add]
    have hover : Ptr.overlaps n ((getData W₁ i).add cs.length) (.block a start) = false := by
      rw [hdata]
      exact decide_eq_false fun h => hother h.1
    have hnone : StringStorage.read W₁ (.block a start) n = none := by
      rw [StringStorage.read, BlockHeap.read, hfreed]
      rfl
    have hfault : memCopy W₁ ((getData W₁ i).add cs.length) (.block a start) n = .error .fault := by
      rw [memCopy, hover, if_neg Bool.false_ne_true, memMove, hnone]
      rfl
    change append fresh W i ((getData W i).add start) n = _
    rw [hrun, hown, hfault]
    rfl

theorem append_likeCopy_iff (hL : (layout w N).Lawful) (hshows : Shows W i v)
    (hkeeps : v.Keeps (layout w N) cs) (hvalid : fresh.Valid W) (hle : start + n ≤ cs.length) :
    LikeCopy .append fresh W i cs start n ↔ Call.Clear .append fresh W i cs start n := by
  have hsize : getSize w N (W.obj i) = cs.length := hshows.size.trans hkeeps.size
  have hread := hshows.read_chars hkeeps hle
  have hsafe := run_chars_ne_fault hL hshows hkeeps hvalid .append hle
  by_cases hgrows : n ≠ 0 ∧ getCapacity w N (W.obj i) < cs.length + n ∧
      ¬ Short (layout w N) fresh (cs.length + n)
  · obtain ⟨hn, hfull, hshort⟩ := hgrows
    rw [append_likeCopy_of_grows hL hshows hkeeps hvalid hle hn hfull hshort, Call.Clear,
      or_iff_right hn, or_iff_right (by omega), or_iff_right hshort]
  · have hkept : ∀ W₁, growTo fresh W i (cs.length + n) = .ok W₁ → n ≠ 0 → W₁ = W := by
      intro W₁ hgrow hn
      by_cases hfull : getCapacity w N (W.obj i) < cs.length + n
      · have hshort : Short (layout w N) fresh (cs.length + n) := by
          by_contra hshort
          exact hgrows ⟨hn, hfull, hshort⟩
        rw [growTo_of_short hfull hshort] at hgrow
        cases hgrow
      · rw [growTo_of_le (Nat.not_lt.mp hfull)] at hgrow
        injection hgrow with hgrow
        exact hgrow.symm
    have hsame : append fresh W i ((getData W i).add start) n =
        append fresh W i (.chars ((cs.drop start).take n)) n := by
      by_cases hn : n = 0
      · unfold append
        rw [if_pos hn, if_pos hn]
      · refine append_congr (fun W₁ hgrow => ?_) hsize
        have hW₁ : W₁ = W := by
          split at hgrow
          case isTrue => exact hkept W₁ hgrow hn
          case isFalse =>
            injection hgrow with hgrow
            exact hgrow.symm
        rw [hW₁]
        exact memCopy_eq_chars hread (hshows.not_overlaps_own hle)
    refine iff_of_true ⟨hsame, fun hfault => hsafe (hsame.symm.trans hfault), ?_⟩ ?_
    · intro W₁ hgrow hinline hlarge b hb hb'
      have hn : n ≠ 0 := by
        intro hzero
        rw [hzero, Nat.add_zero] at hb'
        omega
      rw [hkept W₁ hgrow hn, hinline] at hlarge
      cases hlarge
    · by_contra hclear
      have hnot := not_or.mp hclear
      have hnot' := not_or.mp hnot.2
      exact hgrows ⟨hnot.1, Nat.lt_of_not_le hnot'.1, (not_or.mp hnot'.2).1⟩

end Independence

section Parts

variable {ι : Type} [DecidableEq ι] {w N : ℕ}

/-- In every state between operations, for every part of a string. -/
theorem likeCopy_iff_clear (hpos : 0 < w) (hw : w ≤ 2 ^ 32) (hN : N ≤ kMaxCapacity)
    {W : World ι (layout w N)} {strings : ι → Option (List (TChar w))} (h : Inv W strings)
    {i : ι} {cs : List (TChar w)} (hi : strings i = some cs) {fresh : Fresh w}
    (hvalid : fresh.Valid W) {start n : ℕ} (hle : start + n ≤ cs.length) (call : Call) :
    LikeCopy call fresh W i cs start n ↔ call.Clear fresh W i cs start n := by
  have hL := lawful hpos hw hN
  obtain ⟨v, hshows, hkeeps⟩ := h.keeps i cs hi
  cases call with
  | append => exact append_likeCopy_iff hL hshows hkeeps hvalid hle
  | assign => exact assign_likeCopy_iff hL hshows hkeeps hvalid hle

def fullRun : Except Halt (World Unit (layout 1 8)) :=
  append ⟨0, fun _ => 7⟩ (construct ⟨fun _ _ => 9, fun _ => false, fun _ => none⟩ ())
    () (.chars [1, 2, 3, 4, 5, 6, 7, 8]) 8

theorem exists_full : ∃ W, fullRun = .ok W ∧
    Inv W (update (fun _ => none) () (some [1, 2, 3, 4, 5, 6, 7, 8])) := by
  have hL : (layout 1 8).Lawful := lawful (by decide) (by decide) (by decide)
  have hempty : Inv (⟨fun _ _ => 9, fun _ => false, fun _ => none⟩ : World Unit (layout 1 8))
      fun _ => none := inv_empty _
  have hcons := inv_construct hL hempty (i := ()) rfl
  have hfresh : (⟨0, fun _ => 7⟩ : Fresh 1).Valid (construct (N := 8)
      ⟨fun _ _ => 9, fun _ => false, fun _ => none⟩ ()) := fun hne => absurd rfl hne
  have hsource : (Source.chars [1, 2, 3, 4, 5, 6, 7, 8]).Valid
      (update (fun _ => none) () (some ([] : List (TChar 1)))) := trivial
  have hchars := refines_append (n := 8) hL hcons hfresh (update_self _ _ _) hsource
    trivial (by decide) (by decide)
  obtain ⟨hfatal, -⟩ | ⟨W, hW, hinv⟩ := hchars
  · exact absurd (congrArg (fun r => r.toOption.isSome) hfatal) (by decide +kernel)
  · exact ⟨W, hW, hinv⟩

theorem of_run {α : Type} {r : Except Halt α} {a : α} (test : α → Bool) (hr : r = .ok a)
    (h : r.toOption.any test = true) : test a = true := by
  rw [hr] at h
  exact h

theorem valid_of_full {W : World Unit (layout 1 8)} (hW : fullRun = .ok W) :
    (⟨64, fun _ => 7⟩ : Fresh 1).Valid W := by
  have hnone := of_run (fun W => (W.heap 64).isNone) hW (by decide +kernel)
  exact fun _ => ⟨isNone_iff_eq_none.mp hnone, by decide⟩

theorem likeCopy_iff_clear_full : ∃ W, fullRun = .ok W ∧ ∀ call,
    LikeCopy call ⟨64, fun _ => 7⟩ W () [1, 2, 3, 4, 5, 6, 7, 8] 0 8 ↔
      call.Clear ⟨64, fun _ => 7⟩ W () [1, 2, 3, 4, 5, 6, 7, 8] 0 8 := by
  obtain ⟨W, hW, hinv⟩ := exists_full
  exact ⟨W, hW, likeCopy_iff_clear (by decide) (by decide) (by decide) hinv
    (update_self _ _ _) (valid_of_full hW) (by decide)⟩

/-- The string appended to itself, as it leaves the inline buffer. -/
theorem not_likeCopy_full : ¬ ∀ (W : World Unit (layout 1 8))
    (strings : Unit → Option (List (TChar 1))), Inv W strings → ∀ cs, strings () = some cs →
      ∀ fresh : Fresh 1, fresh.Valid W → ∀ start n, start + n ≤ cs.length → ∀ call,
        LikeCopy call fresh W () cs start n := by
  intro h
  obtain ⟨W, hW, hinv⟩ := exists_full
  have hlike := h W _ hinv _ (update_self _ _ _) ⟨64, fun _ => 7⟩ (valid_of_full hW)
    0 8 (by decide) .append
  have hinline := of_run (fun W => !isLarge 1 8 (W.obj ())) hW (by decide +kernel)
  have hgrown := of_run (fun W => (growTo ⟨64, fun _ => 7⟩ W () 16).toOption.any
    fun W' => isLarge 1 8 (W'.obj ())) hW (by decide +kernel)
  cases hgrow : growTo ⟨64, fun _ => 7⟩ W () 16 with
  | error e =>
    rw [hgrow] at hgrown
    exact Bool.false_ne_true hgrown
  | ok W' =>
    rw [hgrow] at hgrown
    exact hlike.intact W' hgrow (by simpa using hinline) hgrown 0 (by decide) (by decide)
      (overwritten_of_lt (by decide))

end Parts

end Equilibrium.SmallString
