import Equilibrium.Strings.SmallStringModifiers

/-! Runs of operations on strings with an inline buffer, compared with lists of characters. -/

namespace Equilibrium.SmallString

open Library Library.ByteMemory Library.Interleaving StringStorage List Option
open Function (update update_self update_of_ne update_eq_self update_idem)
open Library.ArrayWrite (Holds)

section Specification

variable {ι : Type} [DecidableEq ι] {w N : ℕ} (strings : ι → Option (List (TChar w)))

/-- The operations on lists; `none` is a string that is not there. -/
def Op.apply : Op ι w → ι → Option (List (TChar w))
  | .construct i => update strings i (some [])
  | .constructFill i count c => update strings i (some (List.replicate count c))
  | .constructCopy i j => update strings i (strings j)
  | .constructMove i j => update (update strings i (strings j)) j (some [])
  | .destroy i => update strings i none
  | .assign i src len => update strings i (some ((src.units strings).take len))
  | .assignRange i src n => update strings i (some ((src.units strings).take n))
  | .assignCStr i src => update strings i (some (src.cstr strings))
  | .assignCopy i j => update strings i (strings j)
  | .assignMove i j =>
    if i = j then strings
    else update (update strings i (strings j)) j (some [])
  | .append i src count =>
    update strings i ((strings i).map (· ++ (src.units strings).take count))
  | .appendCStr i src => update strings i ((strings i).map (· ++ src.cstr strings))
  | .pushBack i c => update strings i ((strings i).map (· ++ [c]))
  | .insert i pos count c => update strings i
    ((strings i).map fun cs => cs.take pos ++ List.replicate count c ++ cs.drop pos)
  | .erase i pos count =>
    update strings i ((strings i).map fun cs => cs.take pos ++ cs.drop (pos + count))
  | .removeSuffix i n =>
    update strings i ((strings i).map fun cs => cs.take (cs.length - n))
  | .reserve _ _ => strings
  | .resize i newSize => update strings i
    ((strings i).map fun cs => (cs ++ List.replicate (newSize - cs.length) 0).take newSize)
  | .clear i => update strings i (some [])
  | .shrinkToFit _ => strings

def Op.needs : Op ι w → ℕ
  | .constructFill _ count _ => count
  | .constructCopy _ j | .assignCopy _ j => ((strings j).getD []).length
  | .assign _ _ len => len
  | .assignRange _ _ n => n
  | .assignCStr _ src => (src.cstr strings).length
  | .append i _ count | .insert i _ count _ => ((strings i).getD []).length + count
  | .appendCStr i src => ((strings i).getD []).length + (src.cstr strings).length
  | .pushBack i _ => ((strings i).getD []).length + 1
  | .reserve _ newCapacity => newCapacity
  | .resize _ newSize => newSize
  | .shrinkToFit i => ((strings i).getD []).length
  | .construct _ | .constructMove _ _ | .destroy _ | .assignMove _ _ | .erase _ _ _
  | .removeSuffix _ _ | .clear _ => 0

/-- What the caller has to see to: the strings are there, positions are within them, sizes
fit their type, and a source is not in the string itself and has as many characters as the
call is told. -/
def Op.Valid : Op ι w → Prop
  | .construct i => strings i = none
  | .constructFill i count _ => strings i = none ∧ count ≤ kSizeMax
  | .constructCopy i j => strings i = none ∧ (strings j).isSome
  | .constructMove i j => strings i = none ∧ (strings j).isSome
  | .destroy i => (strings i).isSome
  | .assign i src len => (strings i).isSome ∧ src.Valid strings ∧ src.Apart i ∧
    (src.isNull ∨ len ≤ (src.units strings).length)
  | .assignRange i src n => (strings i).isSome ∧ src.Valid strings ∧ src.Apart i ∧
    (src.isNull ∨ n ≤ (src.units strings).length)
  | .assignCStr i src => (strings i).isSome ∧ src.Valid strings ∧ src.Apart i ∧
    src.Terminated strings
  | .assignCopy i j => (strings i).isSome ∧ (strings j).isSome
  | .assignMove i j => (strings i).isSome ∧ (strings j).isSome
  | .append i src count => (strings i).isSome ∧ src.Valid strings ∧ src.Apart i ∧
    count ≤ (src.units strings).length ∧ count ≤ kSizeMax
  | .appendCStr i src => (strings i).isSome ∧ src.Valid strings ∧ src.Apart i ∧
    src.Terminated strings
  | .pushBack i _ => (strings i).isSome
  | .insert i pos count _ => (strings i).any (pos ≤ ·.length) ∧ count ≤ kSizeMax
  | .erase i pos _ => (strings i).any (pos ≤ ·.length)
  | .removeSuffix i n => (strings i).any (n ≤ ·.length)
  | .reserve i _ => (strings i).isSome
  | .resize i _ => (strings i).isSome
  | .clear i => (strings i).isSome
  | .shrinkToFit i => (strings i).isSome

/-- A length that is cast to `size_type` fits into it. -/
def Op.Narrow : Op ι w → Prop
  | .assignRange _ _ n => n < 2 ^ 32
  | .assignCStr _ src => (src.cstr strings).length < 2 ^ 32
  | _ => True

def Act.Valid (W : World ι (layout w N)) (a : Act ι w) : Prop :=
  a.op.Valid (contents W) ∧ a.fresh.Valid W

end Specification

section Steps

variable {ι : Type} [DecidableEq ι] {w N : ℕ} {W W' : World ι (layout w N)} {i j : ι}
  {v : View w} {cs ds : List (TChar w)} {n : ℕ} {fresh : Fresh w} {src : Source ι w}
  {strings strings' : ι → Option (List (TChar w))}

section

variable (hL : (layout w N).Lawful)
include hL

section

variable (h : Inv W strings)
include h

theorem refines_assign (hfresh : fresh.Valid W) (hi : strings i = some cs)
    (hsrc : src.Valid strings) (hapart : src.Apart i)
    (hlen : src.isNull = true ∨ n ≤ (src.units strings).length) :
    Refines (assign fresh W i (src.ptr W) n)
      (update strings i (some ((src.units strings).take n))) fresh n := by
  refine h.refines hi fun v hshows hkeeps =>
    assign_yields hL hshows hkeeps hfresh (h.read_or_null hsrc hlen) ?_
  exact h.owner_some hi hshows ▸ h.outside_source hsrc hapart

theorem refines_assign_string (hfresh : fresh.Valid W) (hi : strings i = some cs)
    (hj : strings j = some ds) (hij : i ≠ j) :
    Refines (assign fresh W i (getData W j) (getSize w N (W.obj j)))
      (update strings i (some ds)) fresh ds.length := by
  obtain ⟨hunits, hvalid⟩ := part_whole hj
  obtain ⟨v, hshows, hkeeps⟩ := h.keeps j ds hj
  have hsize : getSize w N (W.obj j) = ds.length := hshows.size.trans hkeeps.size
  have hassign := refines_assign hL h hfresh hi hvalid hij.symm
    (.inr (Nat.le_of_eq (by rw [hunits])))
  rw [ptr_part, hunits, take_length] at hassign
  rw [hsize]
  exact hassign

theorem refines_append (hfresh : fresh.Valid W) (hi : strings i = some cs)
    (hsrc : src.Valid strings) (hapart : src.Apart i) (hlen : n ≤ (src.units strings).length)
    (hn : n ≤ kSizeMax) : Refines (append fresh W i (src.ptr W) n)
      (update strings i (some (cs ++ (src.units strings).take n))) fresh
        (cs.length + n) := by
  refine h.refines hi fun v hshows hkeeps =>
    append_yields hL hshows hkeeps hfresh (h.read_source hsrc hlen) ?_ hn
  exact h.owner_some hi hshows ▸ h.outside_source hsrc hapart

theorem inv_construct (hi : strings i = none) : Inv (construct W i) (update strings i (some [])) :=
  h.construct hL hi (W.obj i)

end

end

theorem valid_construct (hfresh : fresh.Valid W) : fresh.Valid (construct W i) := hfresh

section

variable (hL : (layout w N).Lawful)
include hL

theorem refines_constructCopy (h : Inv W strings) (hfresh : fresh.Valid W) (hi : strings i = none)
    (hj : strings j = some cs) :
    Refines (constructCopy fresh W i j) (update strings i (some cs)) fresh cs.length := by
  have hij := ne_of_none hi hj
  have hj' : update strings i (some []) j = some cs := by
    rw [update_of_ne hij.symm, hj]
  have hassign := refines_assign_string hL (inv_construct hL h hi) (valid_construct hfresh)
    (update_self i _ strings) hj' hij
  rw [update_idem] at hassign
  exact hassign

theorem takeOver_eq (hij : i ≠ j) (hshows : Shows W j v) (hkeeps : v.Keeps (layout w N) cs) :
    ∃ W₁ v₁, takeOver W i j = .ok (W₁.setObj j (initEmpty w N (W₁.obj j))) ∧ Shows W₁ i v₁ ∧
      v₁.Keeps (layout w N) cs ∧ v₁.address = v.address ∧
      (∀ k, k ≠ i → W₁.obj k = W.obj k) ∧ W₁.heap = W.heap ∧ W₁.alive = W.alive := by
  have hlt := hkeeps.holds.length_lt
  have hmax := hkeeps.length_le
  have hlimit : (layout w N).maxCapacity = 2 ^ 32 - 2 := rfl
  have hsize : getSize w N (W.obj j) = cs.length := hshows.size.trans hkeeps.size
  have hcapacity : v.cells.length = getCapacity w N (W.obj j) + 1 := hshows.capacity
  unfold takeOver
  simp only
  obtain hv | ⟨a, hv⟩ := eq_none_or_eq_some v.address
  · have hlarge : isLarge w N (W.obj j) = false := hshows.isLarge_none hv
    rw [getSize_false hlarge] at hsize
    rw [hlarge, if_neg Bool.false_ne_true, hsize]
    generalize hm : store (setIsLarge w N (W.obj i) false) 4 (smallSizeOffset w N) cs.length = m
    have hobj : (W.setObj i m).obj i = m := update_self i _ W.obj
    have hsource : (W.setObj i m).obj j = W.obj j := update_of_ne hij.symm _ W.obj
    have hinline := shows_inline (by omega)
      (hobj.trans hm.symm)
    have hlength := length_inlineCells (layout w N) ((W.setObj i m).obj i)
    have hcells := length_inlineCells (layout w N) (W.obj j)
    rw [← hshows.inline hv] at hcells
    have hread : read (W.setObj i m) (.inline j 0) (cs.length + 1) = some (cs ++ [0]) := by
      have hterminated := hkeeps.holds.read_terminated
      rw [hshows.inline hv, ← hsource] at hterminated
      exact hterminated
    have hfits : 0 + (cs ++ [0]).length ≤ (inlineCells (layout w N) ((W.setObj i m).obj i)).length := by
      rw [length_append, length_singleton]
      omega
    obtain ⟨cells, hwrite⟩ := ArrayWrite.exists_write hfits
    have hlength' := ArrayWrite.length_write hwrite
    obtain ⟨W₁, hW₁, hchanges⟩ := hinline.write hL hwrite
    have hptr : (getData (W.setObj i m) i).add 0 = .inline i 0 := by
      rw [hinline.getData, elim_none, Ptr.add, Nat.zero_add]
    rw [hptr] at hW₁
    have hover : Ptr.overlaps (cs.length + 1) (.inline i 0 : Ptr ι w) (.inline j 0) = false :=
      decide_eq_false fun h => hij h.1
    have hcopy : memCopy (W.setObj i m) (.inline i 0) (.inline j 0) (cs.length + 1) = .ok W₁ := by
      rw [memCopy, hover, if_neg Bool.false_ne_true, memMove, hread, bind_some, hW₁]
      rfl
    refine ⟨W₁, _, ?_, hchanges.shows, ⟨rfl, ArrayWrite.holds_of_write hwrite, ?_⟩, hv.symm,
      fun k hk => (hchanges.obj k hk).trans (update_of_ne hk _ _), ?_, hchanges.alive⟩
    · simp only [bind, Except.bind, hcopy, pure, Except.pure]
    · exact (by omega : cells.length ≤ (layout w N).maxCapacity + 1)
    · exact funext fun a => hchanges.same a (some_ne_none a).symm (some_ne_none a).symm
  · obtain ⟨hlarge, hdata⟩ := hshows.isLarge_some hv
    have hlarge : isLarge w N (W.obj j) = true := hlarge
    have hdata : load (W.obj j) 8 0 = a := hdata
    rw [getSize_true hlarge] at hsize
    rw [getCapacity_true hlarge] at hcapacity
    rw [hlarge, if_pos rfl]
    have haddress : load (W.obj j) 8 0 < 2 ^ 64 := load_lt (W.obj j) 8 0
    obtain ⟨hlarge', hdata', hsize', hcapacity'⟩ := hL.setLarge (W.obj i) (load (W.obj j) 8 0)
      (load (W.obj j) 4 8) (load (W.obj j) 4 12) haddress (by omega) (by omega)
    generalize hm : (layout w N).setLarge (W.obj i) (load (W.obj j) 8 0) (load (W.obj j) 4 8)
      (load (W.obj j) 4 12) = m at hlarge' hdata' hsize' hcapacity'
    have hfields : setIsLarge w N (copyField (copyField (copyField (W.obj i) (W.obj j) 0 8)
        (W.obj j) 8 4) (W.obj j) 12 4) true = m := hm
    rw [hfields]
    have hobj : (W.setObj i m).obj i = m := update_self i _ W.obj
    refine ⟨W.setObj i m, v, rfl, ⟨?_, ?_, ?_, ?_, hshows.block⟩, hkeeps, rfl,
      fun k hk => update_of_ne hk _ _, rfl, rfl⟩
    · rw [hobj, Layout.address, hlarge', if_pos rfl, hdata', hdata, hv]
    · rw [hobj, hsize', hsize, hkeeps.size]
    · rw [hobj, hcapacity', hcapacity]
    · intro hnone
      rw [hv] at hnone
      cases hnone

theorem inv_takeOver (h : Inv W strings) (hi : strings i = none) (hj : strings j = some cs) :
    ∃ W', takeOver (W.setAlive i true) i j = .ok W' ∧
      Inv W' (update (update strings i (some cs)) j (some [])) := by
  have hij := ne_of_none hi hj
  obtain ⟨v, hshows, hkeeps⟩ := h.keeps j cs hj
  have hshows₀ : Shows (W.setAlive i true) j v := hshows.transfer rfl fun _ _ => rfl
  obtain ⟨W₁, v₁, hW₁, hshows₁, hkeeps₁, hv₁, hobj, hheap, halive⟩ :=
    takeOver_eq hL hij hshows₀ hkeeps
  have hself : (W₁.setObj j (initEmpty w N (W₁.obj j))).obj i = W₁.obj i :=
    update_of_ne hij _ _
  have hempty : (W₁.setObj j (initEmpty w N (W₁.obj j))).obj j =
      (layout w N).initEmpty (W₁.obj j) := update_self j _ _
  obtain ⟨hshows', hkeeps'⟩ := shows_initEmpty hL hempty
  refine ⟨_, hW₁, h.move hi hj (fun k hki hkj => ?_) hheap halive
    (hshows₁.transfer hself fun _ _ => rfl) hkeeps₁ (hv₁.trans (h.owner_some hj hshows).symm)
    hshows' hkeeps' rfl⟩
  exact (update_of_ne hkj _ _).trans (hobj k hki)

theorem refines_assignMove (h : Inv W strings) (hi : strings i = some ds) (hj : strings j = some cs)
    (hij : i ≠ j) : Refines (assignMove W i j)
      (update (update strings i (some cs)) j (some [])) fresh 0 := by
  obtain ⟨heap, hheap, hinv⟩ := h.deallocate hL hi
  have hj' : update strings i none j = some cs := by
    rw [update_of_ne hij.symm, hj]
  obtain ⟨W', hW', hinv'⟩ := inv_takeOver hL hinv (update_self i none strings) hj'
  rw [update_idem] at hinv'
  refine .inr ⟨W', ?_, hinv'⟩
  have halive := h.alive_again hi
  have hworld : ((W.setHeap heap).setAlive i false).setAlive i true = W.setHeap heap :=
    congrArg (fun alive => (⟨W.obj, alive, heap⟩ : World ι (layout w N))) halive
  rw [hworld] at hW'
  unfold assignMove
  rw [if_pos hij]
  simp only [bind, Except.bind, hheap, hW']

theorem step_refines (h : Inv W strings) {a : Act ι w} (hvalid : a.op.Valid strings)
    (hnarrow : a.op.Narrow strings) (hfresh : a.fresh.Valid W) :
    Refines (step W a) (a.op.apply strings) a.fresh (a.op.needs strings) := by
  obtain ⟨op, fresh⟩ := a
  cases op with
  | construct i => exact .inr ⟨_, rfl, inv_construct hL h hvalid⟩
  | constructFill i count c =>
    exact h.refines_new hL hvalid.1 (W.obj i) fun v hshows hkeeps =>
      fill_yields (growTo fresh · i ·) hL
        (growTo_grows hL hshows hkeeps (valid_construct hfresh)) hshows hkeeps
  | constructCopy i j =>
    obtain ⟨hi, hj⟩ := hvalid
    obtain ⟨cs, hcs⟩ := isSome_iff_exists.mp hj
    have hrefines := refines_constructCopy hL h hfresh hi hcs
    rw [Op.apply, Op.needs, hcs]
    exact hrefines
  | constructMove i j =>
    obtain ⟨hi, hj⟩ := hvalid
    obtain ⟨cs, hcs⟩ := isSome_iff_exists.mp hj
    rw [Op.apply, hcs]
    exact .inr (inv_takeOver hL h hi hcs)
  | destroy i => exact h.refines_destroy hL hvalid
  | assign i src len =>
    obtain ⟨hi, hsrc, hapart, hlen⟩ := hvalid
    obtain ⟨cs, hcs⟩ := isSome_iff_exists.mp hi
    exact refines_assign hL h hfresh hcs hsrc hapart hlen
  | assignRange i src n =>
    obtain ⟨hi, hsrc, hapart, hlen⟩ := hvalid
    obtain ⟨cs, hcs⟩ := isSome_iff_exists.mp hi
    have hrefines := refines_assign hL h hfresh hcs hsrc hapart hlen
    change Refines (assignRange fresh W i (src.ptr W) n) _ _ _
    rw [assignRange, Nat.mod_eq_of_lt hnarrow]
    exact hrefines
  | assignCStr i src =>
    obtain ⟨hi, hsrc, hapart, hterm⟩ := hvalid
    obtain ⟨cs, hcs⟩ := isSome_iff_exists.mp hi
    have hrefines := refines_assign hL h hfresh hcs hsrc hapart (.inr cstr_prefix.length_le)
    rw [take_cstr] at hrefines
    change Refines (assignCStr fresh W i (src.ptr W)) _ _ _
    unfold assignCStr
    simp only [bind, Except.bind, h.countStringLength hterm]
    rw [Nat.mod_eq_of_lt hnarrow]
    exact hrefines
  | assignCopy i j =>
    obtain ⟨hi, hj⟩ := hvalid
    obtain ⟨ds, hds⟩ := isSome_iff_exists.mp hi
    obtain ⟨cs, hcs⟩ := isSome_iff_exists.mp hj
    change Refines (assignCopy fresh W i j) (update strings i (strings j)) fresh
      ((strings j).getD []).length
    unfold assignCopy
    by_cases hij : i = j
    · rw [if_neg (not_not.mpr hij), hij, update_eq_self]
      exact .inr ⟨W, rfl, h⟩
    · rw [if_pos hij, hcs]
      exact refines_assign_string hL h hfresh hds hcs hij
  | assignMove i j =>
    obtain ⟨hi, hj⟩ := hvalid
    obtain ⟨ds, hds⟩ := isSome_iff_exists.mp hi
    obtain ⟨cs, hcs⟩ := isSome_iff_exists.mp hj
    rw [Op.apply]
    by_cases hij : i = j
    · rw [if_pos hij]
      exact .inr ⟨W, if_neg (not_not.mpr hij), h⟩
    · rw [if_neg hij, hcs]
      exact refines_assignMove hL h hds hcs hij
  | append i src count =>
    obtain ⟨hi, hsrc, hapart, hlen, hcount⟩ := hvalid
    obtain ⟨cs, hcs⟩ := isSome_iff_exists.mp hi
    rw [Op.apply, Op.needs, hcs]
    exact refines_append hL h hfresh hcs hsrc hapart hlen hcount
  | appendCStr i src =>
    obtain ⟨hi, hsrc, hapart, hterm⟩ := hvalid
    obtain ⟨cs, hcs⟩ := isSome_iff_exists.mp hi
    rw [Op.apply, Op.needs, hcs]
    change Refines (appendCStr fresh W i (src.ptr W)) _ _ _
    unfold appendCStr
    simp only [bind, Except.bind, h.countStringLength hterm]
    by_cases hcount : (src.cstr strings).length ≤ kMaxCapacity
    · have hlimit : kMaxCapacity ≤ kSizeMax := Nat.sub_le _ _
      have hrefines := refines_append hL h hfresh hcs hsrc hapart cstr_prefix.length_le
        (Nat.le_trans hcount hlimit)
      rw [take_cstr] at hrefines
      rw [if_pos hcount]
      exact hrefines
    · rw [if_neg hcount]
      have hlong : kMaxCapacity < (src.cstr strings).length := Nat.lt_of_not_le hcount
      have hshort : kMaxCapacity < cs.length + (src.cstr strings).length :=
        Nat.lt_of_lt_of_le hlong (Nat.le_add_left _ _)
      exact .inl ⟨rfl, .inl hshort⟩
  | pushBack i c =>
    obtain ⟨cs, hcs⟩ := isSome_iff_exists.mp hvalid
    have hone : 1 ≤ kSizeMax := by decide
    rw [Op.apply, Op.needs, hcs]
    exact h.refines hcs fun v hshows hkeeps =>
      pushBack_yields (grow fresh · i ·) hL (grow_grows hL hshows hkeeps hfresh) hshows
        hkeeps hone
  | insert i pos count c =>
    obtain ⟨hi, hcount⟩ := hvalid
    obtain ⟨cs, hcs, hpos⟩ := (any_eq_true _ _).mp hi
    rw [Op.apply, Op.needs, hcs]
    exact h.refines hcs fun v hshows hkeeps =>
      insert_yields (grow fresh · i ·) hL (grow_grows hL hshows hkeeps hfresh) hshows
        hkeeps (of_decide_eq_true hpos) hcount
  | erase i pos count =>
    obtain ⟨cs, hcs, hpos⟩ := (any_eq_true _ _).mp hvalid
    rw [Op.apply, hcs]
    exact h.refines hcs fun v hshows hkeeps =>
      erase_yields hL hshows hkeeps (of_decide_eq_true hpos) _
  | removeSuffix i n =>
    obtain ⟨cs, hcs, hn⟩ := (any_eq_true _ _).mp hvalid
    rw [Op.apply, hcs]
    exact h.refines hcs fun v hshows hkeeps =>
      removeSuffix_yields hL hshows hkeeps (of_decide_eq_true hn) _
  | reserve i newCapacity =>
    obtain ⟨cs, hcs⟩ := isSome_iff_exists.mp hvalid
    exact h.refines_same hcs fun v hshows hkeeps =>
      reserve_yields hL hshows hkeeps hfresh
  | resize i newSize =>
    obtain ⟨cs, hcs⟩ := isSome_iff_exists.mp hvalid
    rw [Op.apply, Op.needs, hcs]
    exact h.refines hcs fun v hshows hkeeps =>
      resize_yields (reserve fresh · i ·) hL (grow_grows hL hshows hkeeps hfresh) hshows hkeeps
  | clear i =>
    obtain ⟨cs, hcs⟩ := isSome_iff_exists.mp hvalid
    exact h.refines hcs fun v hshows hkeeps => clear_yields hL hshows hkeeps _
  | shrinkToFit i =>
    obtain ⟨cs, hcs⟩ := isSome_iff_exists.mp hvalid
    rw [Op.needs, hcs]
    exact h.refines_same hcs fun v hshows hkeeps => shrinkToFit_yields hL hshows hkeeps hfresh

end

end Steps

section Runs

variable {ι : Type} [DecidableEq ι] {w N : ℕ}

theorem inv_init (bytes : ι → Bytes) :
    Inv (machine ι w N bytes).init (contents (machine ι w N bytes).init) := by
  have hempty : Inv (machine ι w N bytes).init fun _ => none := inv_empty bytes
  rw [hempty.contents]
  exact hempty

/-- In every run of operations that the callers see to and whose lengths fit in 32 bits, a
string is within its capacity and terminated, every buffer has one owner, and the next such
operation ends the program for want of room or does what the operation on lists does. -/
theorem smallString_sound (hpos : 0 < w) (hw : w ≤ 2 ^ 32) (hN : N ≤ kMaxCapacity)
    {bytes : ι → Bytes} (e : Execution (machine ι w N bytes))
    (hvalid : ∀ n a, e.act n = some a →
      a.Valid (e.state n) ∧ a.op.Narrow (contents (e.state n))) (n : ℕ) :
    (∀ i, (e.state n).alive i = true → Sound (layout w N) (e.state n) i) ∧
      (e.state n).heap.Owned (owner (e.state n)) ∧
      ∀ a : Act ι w, a.Valid (e.state n) → a.op.Narrow (contents (e.state n)) →
        (step (e.state n) a = .error .fatal ∧
          Short (layout w N) a.fresh (a.op.needs (contents (e.state n)))) ∨
        ∃ W', step (e.state n) a = .ok W' ∧ contents W' = a.op.apply (contents (e.state n)) := by
  obtain ⟨hsound, howned, hsteps⟩ := refines_sound
    (fun W a => a.Valid W ∧ a.op.Narrow (contents W)) (fun a => (Op.apply · a.op)) Act.fresh
    (fun a => (Op.needs · a.op)) (fun _ _ => rfl) (inv_init bytes)
    (fun _ _ hinv ha => step_refines (lawful hpos hw hN) hinv ha.1.1 ha.2 ha.1.2) e hvalid n
  exact ⟨hsound, howned, fun a ha hnarrow => hsteps a ⟨ha, hnarrow⟩⟩

end Runs

section Narrowing

variable {ι : Type} [DecidableEq ι] {w N : ℕ} {W : World ι (layout w N)} {i : ι}
  {cs : List (TChar w)} {fresh : Fresh w} {src : Source ι w}
  {strings : ι → Option (List (TChar w))}

theorem assignCStr_wraps (hL : (layout w N).Lawful) (h : Inv W strings)
    (hfresh : fresh.Valid W) (hne : fresh.address ≠ 0) (hi : strings i = some cs)
    (hsrc : src.Valid strings) (hapart : src.Apart i) (hterm : src.Terminated strings)
    (hlength : (src.cstr strings).length % 2 ^ 32 = 0) :
    ∃ W', assignCStr fresh W i (src.ptr W) = .ok W' ∧ contents W' = update strings i (some []) := by
  have hrefines := refines_assign hL h hfresh hi hsrc hapart (.inr (Nat.zero_le _))
  have heq : assignCStr fresh W i (src.ptr W) = assign fresh W i (src.ptr W) 0 := by
    unfold assignCStr
    simp only [bind, Except.bind, h.countStringLength hterm]
    rw [hlength]
  rw [← heq, take_zero] at hrefines
  obtain ⟨-, hlong | hnull⟩ | ⟨W', hW', hinv⟩ := hrefines
  · cases hlong
  · exact absurd hnull hne
  · exact ⟨W', hW', hinv.contents⟩

def longUnits (k : ℕ) : List (TChar 1) := List.replicate k 1 ++ [0]

section

omit [DecidableEq ι]

theorem cstr_longUnits (k : ℕ) {strings : ι → Option (List (TChar 1))} :
    (Source.chars (longUnits k)).cstr strings = replicate k 1 := by
  have hne : ∀ c ∈ replicate k (1 : TChar 1), decide (c ≠ 0) = true := by
    intro c hc
    obtain ⟨-, rfl⟩ := mem_replicate.mp hc
    rfl
  rw [Source.cstr, Source.units, longUnits, takeWhile_append_of_pos hne]
  exact append_nil _

theorem length_cstr_longUnits (k : ℕ) {strings : ι → Option (List (TChar 1))} :
    ((Source.chars (longUnits k)).cstr strings).length = k := by
  rw [cstr_longUnits, length_replicate]

theorem terminated_longUnits (k : ℕ) {strings : ι → Option (List (TChar 1))} :
    (Source.chars (longUnits k)).Terminated strings :=
  mem_append_right _ (mem_singleton_self _)

end

/-- An assignment of that many characters leaves the string empty. -/
theorem assignCStr_long : ∃ (e : Execution (machine Bool 1 8 fun _ _ => 9)) (a : Act Bool 1)
    (W' : World Bool (layout 1 8)), (∀ n b, e.act n = some b → b.Valid (e.state n)) ∧
      a.Valid (e.state 1) ∧ step (e.state 1) a = .ok W' ∧ contents W' true = some [] ∧
      a.op.apply (contents (e.state 1)) true = some (List.replicate (2 ^ 32) 1) := by
  have hL : (layout 1 8).Lawful := lawful (by decide) (by decide) (by decide)
  have hrun : ((machine Bool 1 8 fun _ _ => 9).run (machine Bool 1 8 fun _ _ => 9).init
      [⟨.construct true, ⟨0, fun _ => 7⟩⟩]).isSome := rfl
  have hinit : contents (machine Bool 1 8 fun _ _ => 9).init true = none := rfl
  have hinv := inv_construct hL (inv_init fun _ _ => 9) hinit
  have hself : contents (construct (machine Bool 1 8 fun _ _ => 9).init true) true = some [] := by
    rw [hinv.contents]
    exact update_self true _ _
  have hfresh : (⟨64, fun _ => 7⟩ : Fresh 1).Valid
      (construct (machine Bool 1 8 fun _ _ => 9).init true) := fun _ => ⟨rfl, by decide⟩
  have hsrc : (Source.chars (longUnits (2 ^ 32)) : Source Bool 1).Valid
      (update (contents (machine Bool 1 8 fun _ _ => 9).init) true (some [])) := trivial
  obtain ⟨W', hW', hcontents⟩ := assignCStr_wraps hL hinv hfresh (by decide)
    (update_self true _ _) hsrc trivial (terminated_longUnits _)
    ((congrArg (· % 2 ^ 32) (length_cstr_longUnits _)).trans (Nat.mod_self _))
  refine ⟨.ofRun _ hrun, ⟨.assignCStr true (.chars (longUnits (2 ^ 32))), ⟨64, fun _ => 7⟩⟩, W',
    fun n b hb => ?_, ⟨⟨?_, trivial, trivial, terminated_longUnits _⟩, hfresh⟩,
    hW', ?_, ?_⟩
  · cases n with
    | zero =>
      cases hb
      exact ⟨hinit, fun hne => absurd rfl hne⟩
    | succ n => cases hb
  · have hsome : (contents (construct (machine Bool 1 8 fun _ _ => 9).init true) true).isSome := by
      rw [hself]
      rfl
    exact hsome
  · rw [hcontents]
    exact update_self true _ _
  · rw [Op.apply, update_self, cstr_longUnits]

end Narrowing

section Witness

variable {ι : Type} [DecidableEq ι] {w N : ℕ}

instance (i : ι) (src : Source ι w) : Decidable (src.Apart i) :=
  match src with
  | .null => inferInstanceAs (Decidable True)
  | .chars _ => inferInstanceAs (Decidable True)
  | .part j _ => inferInstanceAs (Decidable (j ≠ i))

instance (strings : ι → Option (List (TChar w))) (op : Op ι w) : Decidable (op.Valid strings) :=
  match op with
  | .construct _ => inferInstanceAs (Decidable (_ = _))
  | .constructFill .. | .constructCopy .. | .constructMove .. | .assign .. | .assignRange ..
  | .assignCStr .. | .assignCopy .. | .assignMove .. | .append .. | .appendCStr .. | .insert .. =>
    inferInstanceAs (Decidable (_ ∧ _))
  | .destroy _ | .pushBack .. | .erase .. | .removeSuffix .. | .reserve .. | .resize .. | .clear _
  | .shrinkToFit _ => inferInstanceAs (Decidable (_ = _))

instance (strings : ι → Option (List (TChar w))) (op : Op ι w) : Decidable (op.Narrow strings) :=
  match op with
  | .assignRange .. | .assignCStr .. => inferInstanceAs (Decidable (_ < _))
  | .construct _ | .constructFill .. | .constructCopy .. | .constructMove .. | .destroy _
  | .assign .. | .assignCopy .. | .assignMove .. | .append .. | .appendCStr .. | .pushBack ..
  | .insert .. | .erase .. | .removeSuffix .. | .reserve .. | .resize .. | .clear _
  | .shrinkToFit _ => inferInstanceAs (Decidable True)

instance (W : World ι (layout w N)) (a : Act ι w) : Decidable (a.Valid W) :=
  inferInstanceAs (Decidable (_ ∧ _))

def smallRun : List (Act Bool 1) :=
  [⟨.construct true, ⟨0, fun _ => 7⟩⟩,
    ⟨.assignCStr true (.chars [1, 1, 1, 1, 1, 1, 0]), ⟨64, fun _ => 7⟩⟩,
    ⟨.constructMove false true, ⟨0, fun _ => 7⟩⟩]

theorem smallString_sound_moved : ∃ e : Execution (machine Bool 1 4 fun _ _ => 9),
    contents (e.state 3) false = some (List.replicate 6 1) ∧ contents (e.state 3) true = some [] ∧
      (e.state 3).heap.Owned (owner (e.state 3)) := by
  have hrun : ((machine Bool 1 4 fun _ _ => 9).run (machine Bool 1 4 fun _ _ => 9).init
      smallRun).isSome := by
    decide +kernel
  have hend : contents (stateAt (machine Bool 1 4 fun _ _ => 9)
      (machine Bool 1 4 fun _ _ => 9).init smallRun 3) false = some (replicate 6 1) ∧
      contents (stateAt (machine Bool 1 4 fun _ _ => 9) (machine Bool 1 4 fun _ _ => 9).init
        smallRun 3) true = some [] := by
    decide +kernel
  exact ⟨.ofRun _ hrun, hend.1, hend.2, (smallString_sound (by decide) (by decide) (by decide) _
    (Execution.ofRun_guarded (P := fun W (a : Act Bool 1) => a.Valid W ∧ a.op.Narrow (contents W))
      (by decide +kernel)) 3).2.1⟩

end Witness

end Equilibrium.SmallString
