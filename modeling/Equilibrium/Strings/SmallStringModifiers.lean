import Equilibrium.Strings.SmallString
import Equilibrium.Strings.StringWorlds

/-! The fields of a string with an inline buffer lie apart from one another where both are
in use. -/

namespace Equilibrium.SmallString

open Library.ByteMemory StringStorage

variable {m : Bytes} {w N n k a c data size capacity : ℕ} {b : Bool}

theorem offsets (w N : ℕ) : w * (N + 1) ≤ smallSizeOffset w N ∧
    smallSizeOffset w N + 4 ≤ isLargeOffset w N ∧ 16 ≤ isLargeOffset w N := by
  have hmul : w * (N + 1) = (N + 1) * w := Nat.mul_comm _ _
  rw [hmul]
  unfold isLargeOffset smallSizeOffset
  omega

theorem isLarge_setIsLarge : isLarge w N (setIsLarge w N m b) = b := by
  cases b <;> simp [isLarge, setIsLarge]

theorem setIsLarge_of_ne (ha : a ≠ isLargeOffset w N) : setIsLarge w N m b a = m a :=
  Function.update_of_ne ha _ m

theorem load_setIsLarge (ha : a + n ≤ isLargeOffset w N) :
    load (setIsLarge w N m b) n a = load m n a :=
  load_congr fun c _ hc => setIsLarge_of_ne (by omega)

theorem isLarge_store (ha : a + n ≤ isLargeOffset w N) :
    isLarge w N (store m n a c) = isLarge w N m := by
  rw [isLarge, isLarge, store_of_outside (by omega)]

theorem getSize_true (h : isLarge w N m = true) : getSize w N m = load m 4 8 := if_pos h

theorem getSize_false (h : isLarge w N m = false) :
    getSize w N m = load m 4 (smallSizeOffset w N) :=
  if_neg (Bool.eq_false_iff.mp h)

theorem getCapacity_true (h : isLarge w N m = true) : getCapacity w N m = load m 4 12 := if_pos h

theorem inline_bound (hk : k ≤ N) : w * k + w ≤ smallSizeOffset w N := by
  have hmul : w * (k + 1) ≤ w * (N + 1) := Nat.mul_le_mul_left w (by omega)
  exact Nat.le_trans hmul (offsets w N).1

theorem getSize_inline (hsize : size < 2 ^ 32) :
    isLarge w N (store (setIsLarge w N m false) 4 (smallSizeOffset w N) size) = false ∧
      getSize w N (store (setIsLarge w N m false) 4 (smallSizeOffset w N) size) = size := by
  obtain ⟨-, hflag, -⟩ := offsets w N
  have hlarge : isLarge w N (store (setIsLarge w N m false) 4 (smallSizeOffset w N) size) =
      false := by
    rw [isLarge_store hflag, isLarge_setIsLarge]
  exact ⟨hlarge, by rw [getSize_false hlarge, load_store hsize]⟩

theorem lawful (hpos : 0 < w) (hw : w ≤ 2 ^ 32) (hN : N ≤ kMaxCapacity) : (layout w N).Lawful := by
  obtain ⟨hinline, hflag, hfields⟩ := offsets w N
  have hmax : kMaxCapacity = 2 ^ 32 - 2 := rfl
  constructor
  case width_pos => exact hpos
  case bytes_lt =>
    have hmul : (kMaxCapacity + 1) * w ≤ (kMaxCapacity + 1) * 2 ^ 32 := Nat.mul_le_mul_left _ hw
    exact (by omega : (kMaxCapacity + 1) * w < 2 ^ 64)
  case max_le => exact (by decide : kMaxCapacity ≤ kSizeMax)
  case inline_le => exact hN
  case capacity_inline =>
    intro m hm
    exact if_neg (Bool.eq_false_iff.mp hm)
  case store_inline =>
    intro m k c hm hk
    have hk : k ≤ N := hk
    have hbound := inline_bound (w := w) hk
    have hlarge : isLarge w N (store m w (w * k) c) = isLarge w N m := isLarge_store (by omega)
    have hm : isLarge w N m = false := hm
    have hsize : getSize w N (store m w (w * k) c) = getSize w N m := by
      rw [getSize_false (hlarge.trans hm), getSize_false hm, load_store_of_disjoint (by omega)]
    exact ⟨hlarge.trans hm, hsize⟩
  case setSize_inline =>
    intro m n hm hn
    have hm : isLarge w N m = false := hm
    have hn : n ≤ N := hn
    have hset : setSize w N m n = store m 4 (smallSizeOffset w N) n := by
      rw [setSize, hm, if_neg Bool.false_ne_true]
    have hlarge : isLarge w N (setSize w N m n) = false := by
      rw [hset, isLarge_store hflag, hm]
    refine ⟨hlarge, ?_, fun b hb => ?_⟩
    · have hsize : getSize w N (setSize w N m n) = n := by
        rw [getSize_false hlarge, hset, load_store (by omega)]
      exact hsize
    · have hb : b < w * (N + 1) := hb
      have hbyte : setSize w N m n b = m b := by
        rw [hset, store_of_outside (by omega)]
      exact hbyte
  case setSize_large =>
    intro m n hm hn
    have hm : isLarge w N m = true := hm
    have hn : n ≤ kMaxCapacity := hn
    have hset : setSize w N m n = store m 4 8 n := by
      rw [setSize, hm, if_pos rfl]
    have hlarge : isLarge w N (setSize w N m n) = true := by
      rw [hset, isLarge_store (by omega), hm]
    have hsize : getSize w N (setSize w N m n) = n := by
      rw [getSize_true hlarge, hset, load_store (by omega)]
    have hdata : load (setSize w N m n) 8 0 = load m 8 0 := by
      rw [hset, load_store_of_disjoint (by omega)]
    have hcapacity : getCapacity w N (setSize w N m n) = getCapacity w N m := by
      rw [getCapacity_true hlarge, getCapacity_true hm, hset, load_store_of_disjoint (by omega)]
    exact ⟨hlarge, hsize, hdata, hcapacity⟩
  case setLarge =>
    intro m data size capacity hdata hsize hcapacity
    have hcapacity : capacity ≤ kMaxCapacity := hcapacity
    have hlarge : isLarge w N (setLarge w N m data size capacity) = true := isLarge_setIsLarge
    have hload : load (setLarge w N m data size capacity) 8 0 = data := by
      rw [setLarge, load_setIsLarge (by omega), load_store_of_disjoint (by omega),
        load_store_of_disjoint (by omega), load_store (by omega)]
    have hgetsize : getSize w N (setLarge w N m data size capacity) = size := by
      rw [getSize_true hlarge, setLarge, load_setIsLarge (by omega),
        load_store_of_disjoint (by omega), load_store (by omega)]
    have hgetcapacity : getCapacity w N (setLarge w N m data size capacity) = capacity := by
      rw [getCapacity_true hlarge, setLarge, load_setIsLarge (by omega), load_store (by omega)]
    exact ⟨hlarge, hload, hgetsize, hgetcapacity⟩
  case initEmpty =>
    intro m
    have hfirst : 0 + w ≤ smallSizeOffset w N := by
      have hbound := inline_bound (w := w) (Nat.zero_le N)
      omega
    have hlarge : isLarge w N (initEmpty w N m) = false := by
      rw [initEmpty, isLarge_store (by omega), isLarge_store hflag, isLarge_setIsLarge]
    have hsize : getSize w N (initEmpty w N m) = 0 := by
      rw [getSize_false hlarge, initEmpty, load_store_of_disjoint (by omega),
        load_store (by decide)]
    have hnul : load (initEmpty w N m) w 0 = 0 := load_store (Nat.pow_pos (by decide))
    exact ⟨hlarge, hsize, hnul⟩

end Equilibrium.SmallString

/-! What the operations of `BasicSmallString` do to the view of a string. -/

namespace Equilibrium.SmallString

open Library Library.ByteMemory StringStorage
open Library.ArrayWrite (Holds)

variable {ι : Type} [DecidableEq ι] {w N : ℕ} {W W' W₁ : World ι (layout w N)} {i j : ι}
  {v v₁ : View w} {cs xs : List (TChar w)} {k n : ℕ} {p : Ptr ι w} {fresh : Fresh w}
  {c : TChar w} {strings : ι → Option (List (TChar w))}

omit [DecidableEq ι] in
/-- A switch to the inline mode, with the size but not yet the characters. -/
theorem shows_inline {size : ℕ} {m : Bytes} (hsize : size < 2 ^ 32)
    (hobj : W.obj i = store (setIsLarge w N m false) 4 (smallSizeOffset w N) size) :
    Shows W i ⟨none, inlineCells (layout w N) (W.obj i), size⟩ := by
  obtain ⟨hlarge, hget⟩ := getSize_inline hsize
  rw [← hobj] at hlarge hget
  refine ⟨?_, hget, ?_, fun _ => rfl, nofun⟩
  · have hlarge : (layout w N).isLarge (W.obj i) = false := hlarge
    rw [Layout.address, hlarge, if_neg Bool.false_ne_true]
  · have hcapacity : (layout w N).getCapacity (W.obj i) = N := if_neg (Bool.eq_false_iff.mp hlarge)
    rw [length_inlineCells, hcapacity]
    rfl

/-- The source of a copy is outside of the string, so a change of the string is not in the way. -/
theorem copy_yields (hL : (layout w N).Lawful) (hchanges : Changes W W₁ i v v₁)
    (hkeeps : v₁.Keeps (layout w N) cs) (hk : k ≤ cs.length) (hroom : k + n < v₁.cells.length)
    (hread : read W p n = some xs) (hout : p.Outside i v.address) (reason : Prop) :
    Yields (memCopy W₁ ((getData W₁ i).add k) p n >>= fun W => finish W i (k + n)) W₁ i v₁
      (cs.take k ++ xs) reason := by
  obtain ⟨hout₁, hread₁⟩ := hchanges.outside hout hread
  obtain rfl := length_of_read hread
  rw [memCopy, hchanges.shows.not_overlaps hout₁, if_neg Bool.false_ne_true, memMove, hread₁]
  exact hchanges.shows.write_yields xs hL hkeeps hk hroom reason

section Modifiers

variable (hL : (layout w N).Lawful) (h : Shows W i v) (hkeeps : v.Keeps (layout w N) cs)

include hL h hkeeps

theorem clear_yields (reason : Prop) : Yields (clear W i) W i v [] reason := by
  have hlt := hkeeps.holds.length_lt
  have hnil : v.cells.take ([] : List (TChar w)).length = [] := List.take_zero
  have hpos : ([] : List (TChar w)).length < v.cells.length := by
    rw [List.length_nil]
    omega
  obtain ⟨W', v', hW', hchanges, hkeeps', -⟩ := h.finish hL hnil hpos hkeeps.length_le
  have hsize := (h.setSize hL hpos hkeeps.length_le).shows.size
  rw [finish, terminate, hsize] at hW'
  rw [List.length_nil, Ptr.add_zero] at hW'
  exact .inr ⟨W', v', hW', hchanges, hkeeps'⟩

variable (hvalid : fresh.Valid W)

include hvalid

theorem growTo_grows : Grows (growTo fresh W i n) W i v cs fresh n := by
  have hcapacity : v.cells.length = getCapacity w N (W.obj i) + 1 := h.capacity
  have hlt := hkeeps.holds.length_lt
  unfold growTo
  by_cases hn : n ≤ getCapacity w N (W.obj i)
  · rw [if_pos hn]
    exact .inr ⟨W, v, rfl, .refl h, hkeeps, by omega⟩
  · rw [if_neg hn]
    by_cases hmax : n ≤ kMaxCapacity
    · rw [if_pos hmax]
      simp only
      have hroom : (if n / 2 < kMaxCapacity - n then n / 2 else kMaxCapacity - n) ≤
          kMaxCapacity - n := by
        split <;> omega
      generalize (if n / 2 < kMaxCapacity - n then n / 2 else kMaxCapacity - n) = extra at hroom
      obtain ⟨hfatal, hshort⟩ | ⟨W', v', hW', hchanges, hkeeps', hlength⟩ :=
        reallocate_spec hL h hkeeps hvalid (show cs.length ≤ n + extra by omega)
      · have hlimit : ¬ (layout w N).maxCapacity < n + extra :=
          (by omega : ¬ kMaxCapacity < n + extra)
        exact .inl ⟨hfatal, .inr (hshort.resolve_left hlimit)⟩
      · exact .inr ⟨W', v', hW', hchanges, hkeeps', by omega⟩
    · rw [if_neg hmax]
      exact .inl ⟨rfl, .inl (Nat.lt_of_not_le hmax)⟩

theorem grow_grows : Grows (grow fresh W i n) W i v cs fresh n := by
  have hcapacity : v.cells.length = getCapacity w N (W.obj i) + 1 := h.capacity
  unfold grow
  by_cases hn : n > getCapacity w N (W.obj i)
  · rw [if_pos hn]
    exact growTo_grows hL h hkeeps hvalid
  · rw [if_neg hn]
    exact .inr ⟨W, v, rfl, .refl h, hkeeps, by omega⟩

theorem assign_yields (hread : (p.isNull = true ∧ xs = []) ∨ read W p n = some xs)
    (hout : p.Outside i v.address) :
    Yields (assign fresh W i p n) W i v xs (Short (layout w N) fresh n) := by
  unfold assign
  by_cases hnil : p.isNull = true ∨ n = 0
  · rw [if_pos hnil, nil_of_read hnil hread]
    exact clear_yields hL h hkeeps _
  · rw [if_neg hnil]
    have hread : read W p n = some xs := hread.resolve_left fun hnull => hnil (.inl hnull.1)
    refine (grow_grows hL h hkeeps hvalid).bind fun W₁ v₁ hchanges hkeeps₁ hroom => ?_
    have hyields := copy_yields hL hchanges hkeeps₁ (Nat.zero_le _) (by omega) hread hout
      (Short (layout w N) fresh n)
    rwa [Ptr.add_zero, Nat.zero_add] at hyields

theorem append_yields (hread : read W p n = some xs) (hout : p.Outside i v.address)
    (hn : n ≤ kSizeMax) : Yields (append fresh W i p n) W i v (cs ++ xs)
      (Short (layout w N) fresh (cs.length + n)) := by
  have hsize : getSize w N (W.obj i) = cs.length := h.size.trans hkeeps.size
  unfold append
  by_cases hzero : n = 0
  · rw [hzero] at hread
    rw [if_pos hzero, List.length_eq_zero_iff.mp (length_of_read hread), List.append_nil]
    exact .inr ⟨W, v, rfl, .refl h, hkeeps⟩
  rw [if_neg hzero]
  simp only [hsize]
  refine .checkedLengthSum hL hn ((grow_grows hL h hkeeps hvalid).bind
    fun W₁ v₁ hchanges hkeeps₁ hroom => ?_)
  have hyields := copy_yields hL hchanges hkeeps₁ (Nat.le_refl _) hroom hread hout
    (Short (layout w N) fresh (cs.length + n))
  rwa [List.take_length] at hyields

theorem reserve_yields : Yields (reserve fresh W i n) W i v cs (Short (layout w N) fresh n) :=
  (grow_grows hL h hkeeps hvalid).yields

theorem shrinkToFit_yields :
    Yields (shrinkToFit fresh W i) W i v cs (Short (layout w N) fresh cs.length) := by
  have hlt := hkeeps.holds.length_lt
  have hmax := hkeeps.length_le
  have hlimit : (layout w N).maxCapacity = 2 ^ 32 - 2 := rfl
  have hgetsize := h.size.trans hkeeps.size
  have hinline : (layout w N).inlineCapacity = N := rfl
  have hle := hL.inline_le
  unfold shrinkToFit
  obtain hv | ⟨a, ha⟩ := Option.eq_none_or_eq_some v.address
  · have hlarge : isLarge w N (W.obj i) = false := h.isLarge_none hv
    rw [if_pos (Bool.eq_false_iff.mp hlarge)]
    exact .inr ⟨W, v, rfl, .refl h, hkeeps⟩
  obtain ⟨hlarge, hdata⟩ := h.isLarge_some ha
  have hlarge : isLarge w N (W.obj i) = true := hlarge
  have hdata : load (W.obj i) 8 0 = a := hdata
  have hsize : load (W.obj i) 4 8 = cs.length := by
    rw [← getSize_true hlarge]
    exact hgetsize
  have hcapacity : v.cells.length = load (W.obj i) 4 12 + 1 := by
    rw [← getCapacity_true hlarge]
    exact h.capacity
  have hgetcapacity : (layout w N).getCapacity (W.obj i) = load (W.obj i) 4 12 :=
    getCapacity_true hlarge
  have hown := h.read_block hkeeps ha
  rw [if_neg (not_not.mpr hlarge)]
  simp only [hsize, hdata]
  by_cases hsmall : cs.length ≤ N
  · rw [if_pos hsmall]
    generalize hm : store (setIsLarge w N (W.obj i) false) 4 (smallSizeOffset w N) cs.length = m
    have hobj : (W.setObj i m).obj i = m := Function.update_self i _ W.obj
    have hshows := shows_inline (by omega)
      (hobj.trans hm.symm)
    have hlength := length_inlineCells (layout w N) ((W.setObj i m).obj i)
    obtain ⟨cells₁, cells₂, hwrite₁, hwrite₂, hlength₂, hholds⟩ :=
      ArrayWrite.write_front (0 : TChar w)
        (show cs.length < (inlineCells (layout w N) ((W.setObj i m).obj i)).length by omega)
    obtain ⟨W₂, hW₂, hchanges₂⟩ := hshows.write hL hwrite₁
    obtain ⟨W₃, hW₃, hchanges₃⟩ := hchanges₂.shows.write hL hwrite₂
    have hptr : ∀ k, (getData (W.setObj i m) i).add k = .inline i k := fun k => by
      rw [hshows.getData, Option.elim_none, Ptr.add, Nat.zero_add]
    have hptr₂ : ∀ k, (getData W₂ i).add k = .inline i k := fun k => by
      rw [hchanges₂.shows.getData, Option.elim_none, Ptr.add, Nat.zero_add]
    rw [hptr] at hW₂
    rw [hptr₂] at hW₃
    obtain ⟨W₄, hfree, hchanges⟩ :=
      h.freeOld hL hmax ha (hchanges₂.trans hchanges₃) rfl rfl
    rw [hgetcapacity] at hfree
    have hread : read (W.setObj i m) (.block a 0) cs.length = some cs := hown
    refine .inr ⟨W₄, _, ?_, hchanges, rfl, hholds, ?_⟩
    · have hcopy : memCopy (W.setObj i m) (.inline i 0) (.block a 0) cs.length = .ok W₂ := by
        have hover : Ptr.overlaps cs.length (.inline i 0 : Ptr ι w) (.block a 0) = false := rfl
        rw [memCopy, hover, if_neg Bool.false_ne_true, memMove, hread, Option.bind_some, hW₂]
        rfl
      simp only [bind, Except.bind, hcopy, hW₃, check, hfree]
    · exact (by omega : cells₂.length ≤ (layout w N).maxCapacity + 1)
  · rw [if_neg hsmall]
    by_cases hshrink : cs.length < load (W.obj i) 4 12
    · rw [if_pos hshrink]
      obtain ⟨hfatal, hshort⟩ | ⟨hle, hne, cells, hlength, hallocate⟩ :=
        allocateBuffer_cases hL fresh W cs.length
      · rw [hfatal]
        exact .inl ⟨rfl, hshort⟩
      · obtain ⟨hfree, haddress⟩ := hvalid hne
        obtain ⟨cells₁, cells₂, hwrite₁, hwrite₂, hlength₂, hholds⟩ :=
          ArrayWrite.write_front (0 : TChar w) (show cs.length < cells.length by omega)
        -- only the pointer and the capacity are written
        have hlarge' : isLarge w N (store (store (W.obj i) 8 0 fresh.address) 4 12 cs.length) =
            true := by
          obtain ⟨-, -, hfields⟩ := offsets w N
          rw [isLarge_store (by omega), isLarge_store (by omega), hlarge]
        have hfacts : (layout w N).isLarge
            (store (store (W.obj i) 8 0 fresh.address) 4 12 cs.length) = true ∧
            (layout w N).largeData
              (store (store (W.obj i) 8 0 fresh.address) 4 12 cs.length) = fresh.address ∧
            (layout w N).getSize
              (store (store (W.obj i) 8 0 fresh.address) 4 12 cs.length) = cs.length ∧
            (layout w N).getCapacity
              (store (store (W.obj i) 8 0 fresh.address) 4 12 cs.length) = cs.length := by
          refine ⟨hlarge', ?_, (getSize_true hlarge').trans ?_, (getCapacity_true hlarge').trans ?_⟩
          · exact (load_store_of_disjoint (by omega)).trans (load_store (by omega))
          · rw [load_store_of_disjoint (by omega), load_store_of_disjoint (by omega), hsize]
          · exact load_store (by omega)
        obtain ⟨W₁, hW₁, hobj, hchanges⟩ :=
          h.replace hL hmax hfree (hlength₂.trans hlength) hfacts
        have hdealloc : deallocateLarge (withBlock W fresh.address cells₂) i =
            freeBuffer (withBlock W fresh.address cells₂) a
              (bufferByteSize w (load (W.obj i) 4 12)) := by
          have hlarge : (layout w N).isLarge ((withBlock W fresh.address cells₂).obj i) = true :=
            hlarge
          have hcap : (layout w N).getCapacity ((withBlock W fresh.address cells₂).obj i) =
              load (W.obj i) 4 12 := hgetcapacity
          have hptr : (layout w N).largeData ((withBlock W fresh.address cells₂).obj i) = a := hdata
          rw [deallocateLarge, hlarge, if_pos rfl, hcap, hptr]
        rw [hdealloc] at hW₁
        refine .inr ⟨_, _, ?_, hchanges, rfl, hholds, ?_⟩
        · rw [hallocate]
          simp only [bind, Except.bind, memCopy_withBlock hfree hown hwrite₁,
            write_withBlock hwrite₂, check, hW₁, pure, Except.pure, hobj]
        · exact (by omega : cells₂.length ≤ (layout w N).maxCapacity + 1)
    · rw [if_neg hshrink]
      exact .inr ⟨W, v, rfl, .refl h, hkeeps⟩

end Modifiers

end Equilibrium.SmallString
