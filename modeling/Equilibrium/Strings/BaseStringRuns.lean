import Equilibrium.Strings.BaseString

/-! Runs of operations on strings, compared with lists of characters. -/

namespace Equilibrium.BaseString

open Library Library.ByteMemory Library.Interleaving StringStorage
open Function (update update_self update_of_ne update_eq_self update_idem)

section Specification

variable {ι : Type} [DecidableEq ι] {w : ℕ} (strings : ι → Option (List (TChar w)))

/-- The operations on lists; `none` is a string that is not there. -/
def Op.apply : Op ι w → ι → Option (List (TChar w))
  | .construct i => update strings i (some [])
  | .constructFill i count c => update strings i (some (List.replicate count c))
  | .constructCopy i j => update strings i (strings j)
  | .constructMove i j => update (update strings i (strings j)) j (some [])
  | .destroy i => update strings i none
  | .assign i src len => update strings i (some ((src.units strings).take len))
  | .assignCStr i src => update strings i (some (src.cstr strings))
  | .assignCopy i j => update strings i (strings j)
  | .assignMove i j =>
    if i = j then strings
    else update (update strings i (strings j)) j (some [])
  | .append i src count =>
    update strings i ((strings i).map (· ++ (src.units strings).take count))
  | .appendCStr i src => update strings i ((strings i).map (· ++ src.cstr strings))
  | .appendFill i count c =>
    update strings i ((strings i).map (· ++ List.replicate count c))
  | .pushBack i c => update strings i ((strings i).map (· ++ [c]))
  | .popBack i => update strings i ((strings i).map List.dropLast)
  | .insert i pos count c => update strings i
    ((strings i).map fun cs => cs.take pos ++ List.replicate count c ++ cs.drop pos)
  | .erase i pos count =>
    update strings i ((strings i).map fun cs => cs.take pos ++ cs.drop (pos + count))
  | .removeSuffix i n =>
    update strings i ((strings i).map fun cs => cs.take (cs.length - n))
  | .reserve _ _ => strings
  | .resize i newSize => update strings i
    ((strings i).map fun cs => (cs ++ List.replicate (newSize - cs.length) 0).take newSize)
  | .clear i => update strings i (some [])
  | .shrinkToFit _ => strings

def Op.needs : Op ι w → ℕ
  | .constructFill _ count _ => count
  | .constructCopy _ j | .assignCopy _ j => ((strings j).getD []).length
  | .assign _ _ len => len
  | .assignCStr _ src => (src.cstr strings).length
  | .append i _ count | .appendFill i count _ | .insert i _ count _ =>
    ((strings i).getD []).length + count
  | .appendCStr i src => ((strings i).getD []).length + (src.cstr strings).length
  | .pushBack i _ => ((strings i).getD []).length + 1
  | .reserve _ newCapacity => newCapacity
  | .resize _ newSize => newSize
  | .shrinkToFit i => ((strings i).getD []).length
  | .construct _ | .constructMove _ _ | .destroy _ | .assignMove _ _ | .popBack _
  | .erase _ _ _ | .removeSuffix _ _ | .clear _ => 0

/-- What the caller has to see to: the strings are there, positions are within them, sizes
fit their type, and a source has as many characters as the call is told. -/
def Op.Valid : Op ι w → Prop
  | .construct i => strings i = none
  | .constructFill i count _ => strings i = none ∧ count ≤ kSizeMax
  | .constructCopy i j => strings i = none ∧ (strings j).isSome
  | .constructMove i j => strings i = none ∧ (strings j).isSome
  | .destroy i => (strings i).isSome
  | .assign i src len => (strings i).isSome ∧ src.Valid strings ∧
    (src.isNull ∨ len ≤ (src.units strings).length)
  | .assignCStr i src => (strings i).isSome ∧ src.Valid strings ∧ src.Terminated strings
  | .assignCopy i j => (strings i).isSome ∧ (strings j).isSome
  | .assignMove i j => (strings i).isSome ∧ (strings j).isSome
  | .append i src count => (strings i).isSome ∧ src.Valid strings ∧
    count ≤ (src.units strings).length ∧ count ≤ kSizeMax
  | .appendCStr i src => (strings i).isSome ∧ src.Valid strings ∧ src.Terminated strings ∧
    (src.cstr strings).length ≤ kSizeMax
  | .appendFill i count _ => (strings i).isSome ∧ count ≤ kSizeMax
  | .pushBack i _ => (strings i).isSome
  | .popBack i => (strings i).any (· ≠ [])
  | .insert i pos count _ => (strings i).any (pos ≤ ·.length) ∧ count ≤ kSizeMax
  | .erase i pos _ => (strings i).any (pos ≤ ·.length)
  | .removeSuffix i n => (strings i).any (n ≤ ·.length)
  | .reserve i _ => (strings i).isSome
  | .resize i _ => (strings i).isSome
  | .clear i => (strings i).isSome
  | .shrinkToFit i => (strings i).isSome

def Act.Valid (W : World ι (layout w)) (a : Act ι w) : Prop :=
  a.op.Valid (contents W) ∧ a.fresh.Valid W

end Specification

section Steps

variable {ι : Type} [DecidableEq ι] {w : ℕ} {W W' : World ι (layout w)} {i j : ι}
  {v : View w} {cs : List (TChar w)} {n : ℕ} {fresh : Fresh w} {src : Source ι w}
  {strings strings' : ι → Option (List (TChar w))}

section

variable (hL : (layout w).Lawful)
include hL

section

variable (h : Inv W strings)
include h

theorem refines_assign (hfresh : fresh.Valid W) (hi : strings i = some cs)
    (hsrc : src.Valid strings) (hlen : src.isNull = true ∨ n ≤ (src.units strings).length) :
    Refines (assign fresh W i (src.ptr W) n)
      (update strings i (some ((src.units strings).take n))) fresh n := by
  exact h.refines hi fun v hshows hkeeps =>
    assign_yields hL hshows hkeeps hfresh (h.read_or_null hsrc hlen)

theorem refines_assign_string (hfresh : fresh.Valid W) (hi : strings i = some cs)
    {ds : List (TChar w)} (hj : strings j = some ds) :
    Refines (assign fresh W i (getData W j) ds.length)
      (update strings i (some ds)) fresh ds.length := by
  obtain ⟨hunits, hvalid⟩ := part_whole hj
  have hassign := refines_assign hL h hfresh hi hvalid
    (.inr (Nat.le_of_eq (by rw [hunits])))
  rw [ptr_part, hunits, List.take_length] at hassign
  exact hassign

theorem refines_append (hfresh : fresh.Valid W) (hi : strings i = some cs)
    (hsrc : src.Valid strings) (hlen : n ≤ (src.units strings).length) (hn : n ≤ kSizeMax) :
    Refines (append fresh W i (src.ptr W) n)
      (update strings i (some (cs ++ (src.units strings).take n))) fresh
        (cs.length + n) := by
  refine h.refines hi fun v hshows hkeeps =>
    append_yields hL hshows hkeeps hfresh (h.read_source hsrc hlen) hn ?_
  -- a source in the string itself ends where the new characters start
  by_cases hapart : src.Apart i
  · have hown := h.owner_some hi hshows
    exact hshows.not_overlaps (hown ▸ h.outside_source hsrc hapart)
  · cases src with
    | null => exact absurd trivial hapart
    | chars units => exact absurd trivial hapart
    | part j start =>
      obtain rfl : j = i := not_not.mp hapart
      have hunits : (Source.part j start).units strings = cs.drop start := by
        rw [Source.units, hi, Option.getD_some]
      rw [hunits, List.length_drop] at hlen
      obtain ⟨ds, hds, hstart⟩ := (Option.any_eq_true _ _).mp hsrc
      obtain rfl : cs = ds := Option.some.inj (hi.symm.trans hds)
      have hstart := of_decide_eq_true hstart
      exact hshows.not_overlaps_own (by omega)

theorem inv_construct (hi : strings i = none) : Inv (construct W i) (update strings i (some [])) :=
  h.construct hL hi (W.obj i)

end

end

theorem valid_construct (hfresh : fresh.Valid W) : fresh.Valid (construct W i) := hfresh

section

variable (hL : (layout w).Lawful)
include hL

section

variable (h : Inv W strings)
include h

theorem refines_constructCopy (hfresh : fresh.Valid W) (hi : strings i = none)
    (hj : strings j = some cs) :
    Refines (constructCopy fresh W i j) (update strings i (some cs)) fresh cs.length := by
  have hij := ne_of_none hi hj
  have hinv := inv_construct hL h hi
  have hobj : (construct W i).obj j = W.obj j := update_of_ne hij.symm _ W.obj
  have hj' : update strings i (some []) j = some cs := by
    rw [update_of_ne hij.symm, hj]
  obtain ⟨v, hshows, hkeeps⟩ := hinv.keeps j cs hj'
  have hsize : getSize ((construct W i).obj j) = cs.length := hshows.size.trans hkeeps.size
  unfold constructCopy
  simp only
  obtain hv | ⟨a, hv⟩ := Option.eq_none_or_eq_some v.address
  · have hlarge : isLarge ((construct W i).obj j) = false := hshows.isLarge_none hv
    rw [hlarge, if_neg Bool.false_ne_true]
    have hself : ((construct W i).setObj i ((construct W i).obj j)).obj i =
        (construct W i).obj j := update_self i _ _
    obtain ⟨u, hu, hukeeps⟩ := hinv.keeps i [] (update_self i _ strings)
    have hnone : u.address = none := by
      have haddress := hu.address
      have hempty : (construct W i).obj i = (layout w).initEmpty (W.obj i) :=
        update_self i _ W.obj
      rw [hempty, Layout.address, (hL.initEmpty (W.obj i)).1, if_neg Bool.false_ne_true] at haddress
      exact haddress.symm
    have hshows' : Shows ((construct W i).setObj i ((construct W i).obj j)) i v :=
      hshows.transfer hself fun _ _ => rfl
    have hchanges : Changes (construct W i) ((construct W i).setObj i ((construct W i).obj j)) i u v :=
      .inPlace hshows' (hv.trans hnone.symm) (fun k hk => update_of_ne hk _ _) rfl
        fun _ _ => rfl
    have hchange := hinv.change (update_self i _ strings) hu hchanges hkeeps
    rw [update_idem] at hchange
    exact .inr ⟨_, rfl, hchange⟩
  · obtain ⟨hlarge, hdata⟩ := hshows.isLarge_some hv
    have hlarge : isLarge ((construct W i).obj j) = true := hlarge
    have hptr : getData (construct W i) j = .block (load ((construct W i).obj j) 8 0) 0 :=
      if_pos hlarge
    have hload : load ((construct W i).obj j) 8 8 = cs.length := by
      rw [← hsize, getSize, hlarge, if_pos rfl]
    rw [hlarge, if_pos rfl, ← hptr, hload]
    have hassign := refines_assign_string hL hinv (valid_construct hfresh)
      (update_self i _ strings) hj'
    rw [update_idem] at hassign
    exact hassign

theorem inv_constructMove (hi : strings i = none) (hj : strings j = some cs) :
    Inv (constructMove W i j)
      (update (update strings i (some cs)) j (some [])) := by
  have hij := ne_of_none hi hj
  obtain ⟨v, hshows, hkeeps⟩ := h.keeps j cs hj
  have hobj : (constructMove W i j).obj i = W.obj j :=
    (update_of_ne hij _ _).trans (update_self i _ _)
  have hobj' : (constructMove W i j).obj j =
      (layout w).initEmpty (((W.setObj i (W.obj j)).setAlive i true).obj j) :=
    update_self j _ _
  obtain ⟨hshows', hkeeps'⟩ := shows_initEmpty hL hobj'
  refine h.move hi hj (fun k hki hkj => ?_) rfl rfl (hshows.transfer hobj fun _ _ => rfl)
    hkeeps     (h.owner_some hj hshows).symm hshows' hkeeps' rfl
  exact (update_of_ne hkj _ _).trans (update_of_ne hki _ _)

theorem refines_assignMove {ds : List (TChar w)} (hi : strings i = some ds)
    (hj : strings j = some cs) (hij : i ≠ j) : Refines (assignMove W i j)
      (update (update strings i (some cs)) j (some [])) fresh 0 := by
  obtain ⟨heap, hheap, hinv⟩ := h.deallocate hL hi
  have hnone : update strings i none i = none := update_self i none strings
  have hj' : update strings i none j = some cs := by
    rw [update_of_ne hij.symm, hj]
  have hmove := inv_constructMove hL hinv hnone hj'
  rw [update_idem] at hmove
  refine .inr ⟨_, ?_, hmove⟩
  have halive := h.alive_again hi
  unfold assignMove
  rw [if_pos hij]
  simp only [bind, Except.bind, hheap, pure, Except.pure]
  exact congrArg (fun alive => Except.ok
    (⟨update (update W.obj i (W.obj j)) j
      (initEmpty w (update W.obj i (W.obj j) j)), alive, heap⟩ : World ι (layout w)))
    halive.symm

theorem step_refines {a : Act ι w} (hvalid : a.op.Valid strings) (hfresh : a.fresh.Valid W) :
    Refines (step W a) (a.op.apply strings) a.fresh (a.op.needs strings) := by
  obtain ⟨op, fresh⟩ := a
  cases op with
  | construct i => exact .inr ⟨_, rfl, inv_construct hL h hvalid⟩
  | constructFill i count c =>
    exact h.refines_new hL hvalid.1 (W.obj i) fun v hshows hkeeps =>
      fill_yields (growToAtLeast fresh · i ·) hL
        (growToAtLeast_grows hL hshows hkeeps (valid_construct hfresh)) hshows hkeeps
  | constructCopy i j =>
    obtain ⟨hi, hj⟩ := hvalid
    obtain ⟨cs, hcs⟩ := Option.isSome_iff_exists.mp hj
    have hrefines := refines_constructCopy hL h hfresh hi hcs
    rw [Op.apply, Op.needs, hcs]
    exact hrefines
  | constructMove i j =>
    obtain ⟨hi, hj⟩ := hvalid
    obtain ⟨cs, hcs⟩ := Option.isSome_iff_exists.mp hj
    rw [Op.apply, hcs]
    exact .inr ⟨_, rfl, inv_constructMove hL h hi hcs⟩
  | destroy i => exact h.refines_destroy hL hvalid
  | assign i src len =>
    obtain ⟨hi, hsrc, hlen⟩ := hvalid
    obtain ⟨cs, hcs⟩ := Option.isSome_iff_exists.mp hi
    exact refines_assign hL h hfresh hcs hsrc hlen
  | assignCStr i src =>
    obtain ⟨hi, hsrc, hterm⟩ := hvalid
    obtain ⟨cs, hcs⟩ := Option.isSome_iff_exists.mp hi
    have hrefines := refines_assign hL h hfresh hcs hsrc (.inr cstr_prefix.length_le)
    rw [take_cstr] at hrefines
    change Refines (assignCStr fresh W i (src.ptr W)) _ _ _
    unfold assignCStr
    simp only [bind, Except.bind, h.countStringLength hterm]
    exact hrefines
  | assignCopy i j =>
    obtain ⟨hi, hj⟩ := hvalid
    obtain ⟨ds, hds⟩ := Option.isSome_iff_exists.mp hi
    obtain ⟨cs, hcs⟩ := Option.isSome_iff_exists.mp hj
    obtain ⟨v, hshows, hkeeps⟩ := h.keeps j cs hcs
    have hsize : getSize (W.obj j) = cs.length := hshows.size.trans hkeeps.size
    change Refines (assignCopy fresh W i j) (update strings i (strings j)) fresh
      ((strings j).getD []).length
    unfold assignCopy
    by_cases hij : i = j
    · rw [if_neg (not_not.mpr hij), hij, update_eq_self]
      exact .inr ⟨W, rfl, h⟩
    · rw [if_pos hij, hsize, hcs]
      exact refines_assign_string hL h hfresh hds hcs
  | assignMove i j =>
    obtain ⟨hi, hj⟩ := hvalid
    obtain ⟨ds, hds⟩ := Option.isSome_iff_exists.mp hi
    obtain ⟨cs, hcs⟩ := Option.isSome_iff_exists.mp hj
    rw [Op.apply]
    by_cases hij : i = j
    · rw [if_pos hij]
      exact .inr ⟨W, if_neg (not_not.mpr hij), h⟩
    · rw [if_neg hij, hcs]
      exact refines_assignMove hL h hds hcs hij
  | append i src count =>
    obtain ⟨hi, hsrc, hlen, hcount⟩ := hvalid
    obtain ⟨cs, hcs⟩ := Option.isSome_iff_exists.mp hi
    rw [Op.apply, Op.needs, hcs]
    exact refines_append hL h hfresh hcs hsrc hlen hcount
  | appendCStr i src =>
    obtain ⟨hi, hsrc, hterm, hcount⟩ := hvalid
    obtain ⟨cs, hcs⟩ := Option.isSome_iff_exists.mp hi
    have hrefines := refines_append hL h hfresh hcs hsrc cstr_prefix.length_le hcount
    rw [take_cstr] at hrefines
    rw [Op.apply, Op.needs, hcs]
    change Refines (appendCStr fresh W i (src.ptr W)) _ _ _
    unfold appendCStr
    simp only [bind, Except.bind, h.countStringLength hterm]
    exact hrefines
  | appendFill i count c =>
    obtain ⟨hi, hcount⟩ := hvalid
    obtain ⟨cs, hcs⟩ := Option.isSome_iff_exists.mp hi
    rw [Op.apply, Op.needs, hcs]
    exact h.refines hcs fun v hshows hkeeps => appendFill_yields hL hshows hkeeps hfresh hcount
  | pushBack i c =>
    obtain ⟨cs, hcs⟩ := Option.isSome_iff_exists.mp hvalid
    rw [Op.apply, Op.needs, hcs]
    exact h.refines hcs fun v hshows hkeeps => pushBack_yields hL hshows hkeeps hfresh
  | popBack i =>
    obtain ⟨cs, hcs, hne⟩ := (Option.any_eq_true _ _).mp hvalid
    rw [Op.apply, hcs]
    exact h.refines hcs fun v hshows hkeeps =>
      popBack_yields hL hshows hkeeps (of_decide_eq_true hne) _
  | insert i pos count c =>
    obtain ⟨hi, hcount⟩ := hvalid
    obtain ⟨cs, hcs, hpos⟩ := (Option.any_eq_true _ _).mp hi
    rw [Op.apply, Op.needs, hcs]
    exact h.refines hcs fun v hshows hkeeps =>
      insert_yields (growToAtLeast fresh · i ·) hL (growToAtLeast_grows hL hshows hkeeps
        hfresh) hshows hkeeps (of_decide_eq_true hpos) hcount
  | erase i pos count =>
    obtain ⟨cs, hcs, hpos⟩ := (Option.any_eq_true _ _).mp hvalid
    rw [Op.apply, hcs]
    exact h.refines hcs fun v hshows hkeeps =>
      erase_yields hL hshows hkeeps (of_decide_eq_true hpos) _
  | removeSuffix i n =>
    obtain ⟨cs, hcs, hn⟩ := (Option.any_eq_true _ _).mp hvalid
    rw [Op.apply, hcs]
    exact h.refines hcs fun v hshows hkeeps =>
      removeSuffix_yields hL hshows hkeeps (of_decide_eq_true hn) _
  | reserve i newCapacity =>
    obtain ⟨cs, hcs⟩ := Option.isSome_iff_exists.mp hvalid
    exact h.refines_same hcs fun v hshows hkeeps =>
      reserve_yields hL hshows hkeeps hfresh
  | resize i newSize =>
    obtain ⟨cs, hcs⟩ := Option.isSome_iff_exists.mp hvalid
    rw [Op.apply, Op.needs, hcs]
    exact h.refines hcs fun v hshows hkeeps =>
      resize_yields (growToAtLeast fresh · i ·) hL (growToAtLeast_grows hL hshows hkeeps hfresh)
        hshows hkeeps
  | clear i =>
    obtain ⟨cs, hcs⟩ := Option.isSome_iff_exists.mp hvalid
    exact h.refines hcs fun v hshows hkeeps => clear_yields hL hshows hkeeps _
  | shrinkToFit i =>
    obtain ⟨cs, hcs⟩ := Option.isSome_iff_exists.mp hvalid
    rw [Op.needs, hcs]
    exact h.refines_same hcs fun v hshows hkeeps => shrinkToFit_yields hL hshows hkeeps hfresh

end

end

end Steps

section Runs

variable {ι : Type} [DecidableEq ι] {w : ℕ}

theorem inv_init (bytes : ι → Bytes) :
    StringStorage.Inv (machine ι w bytes).init (contents (machine ι w bytes).init) := by
  have hempty : StringStorage.Inv (machine ι w bytes).init fun _ => none := inv_empty bytes
  rw [hempty.contents]
  exact hempty

/-- In every run of operations that the callers see to, a string is within its capacity and
terminated, every buffer has one owner, and the next operation ends the program for want of
room or does what the operation on lists does. -/
theorem baseString_sound (hpos : 0 < w) (hw : w ≤ 23) {bytes : ι → Bytes}
    (e : Execution (machine ι w bytes))
    (hvalid : ∀ n a, e.act n = some a → a.Valid (e.state n)) (n : ℕ) :
    (∀ i, (e.state n).alive i = true → Sound (layout w) (e.state n) i) ∧
      (e.state n).heap.Owned (owner (e.state n)) ∧ ∀ a : Act ι w, a.Valid (e.state n) →
        (step (e.state n) a = .error .fatal ∧
          Short (layout w) a.fresh (a.op.needs (contents (e.state n)))) ∨
        ∃ W', step (e.state n) a = .ok W' ∧ contents W' = a.op.apply (contents (e.state n)) :=
  refines_sound (fun W a => a.Valid W) (fun a => (Op.apply · a.op)) Act.fresh
    (fun a => (Op.needs · a.op)) (fun _ _ => rfl) (inv_init bytes)
    (fun _ _ hinv ha => step_refines (lawful hpos hw) hinv ha.1 ha.2) e hvalid n

end Runs

section Witness

variable {ι : Type} [DecidableEq ι] {w : ℕ}

instance (strings : ι → Option (List (TChar w))) (op : Op ι w) : Decidable (op.Valid strings) :=
  match op with
  | .construct _ => inferInstanceAs (Decidable (_ = _))
  | .constructFill .. | .constructCopy .. | .constructMove .. | .assign .. | .assignCStr ..
  | .assignCopy .. | .assignMove .. | .append .. | .appendCStr .. | .appendFill .. | .insert .. =>
    inferInstanceAs (Decidable (_ ∧ _))
  | .destroy _ | .pushBack .. | .popBack _ | .erase .. | .removeSuffix .. | .reserve .. | .resize ..
  | .clear _ | .shrinkToFit _ => inferInstanceAs (Decidable (_ = _))

instance (W : World ι (layout w)) (a : Act ι w) : Decidable (a.Valid W) :=
  inferInstanceAs (Decidable (_ ∧ _))

/-- A string that goes to the heap, and takes a part of itself. -/
def smallRun : List (Act Bool 1) :=
  [⟨.construct true, ⟨0, fun _ => 7⟩⟩,
    ⟨.assign true (.chars (List.replicate 24 1)) 24, ⟨64, fun _ => 7⟩⟩,
    ⟨.append true (.part true 3) 2, ⟨128, fun _ => 7⟩⟩]

theorem baseString_sound_small : ∃ e : Execution (machine Bool 1 fun _ _ => 9),
    contents (e.state 3) true = some (List.replicate 26 1) ∧ (e.state 3).heap 64 = none ∧
      (∀ i, (e.state 3).alive i = true → Sound (layout 1) (e.state 3) i) := by
  have hrun : ((machine Bool 1 fun _ _ => 9).run (machine Bool 1 fun _ _ => 9).init
      smallRun).isSome := by
    decide +kernel
  have hend : contents (stateAt (machine Bool 1 fun _ _ => 9) (machine Bool 1 fun _ _ => 9).init
      smallRun 3) true = some (List.replicate 26 1) ∧ (stateAt (machine Bool 1 fun _ _ => 9)
        (machine Bool 1 fun _ _ => 9).init smallRun 3).heap 64 = none := by
    decide +kernel
  exact ⟨.ofRun _ hrun, hend.1, hend.2, (baseString_sound (by decide) (by decide) _
    (Execution.ofRun_guarded (by decide +kernel)) 3).1⟩

end Witness

end Equilibrium.BaseString
