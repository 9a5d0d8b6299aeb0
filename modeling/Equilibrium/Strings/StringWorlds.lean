import Equilibrium.Library.Interleaving
import Equilibrium.Strings.StringModifiers

/-! Worlds of strings: every string is within its capacity and terminated, and every heap
buffer belongs to one string. -/

namespace Equilibrium.StringStorage

open Library Library.ByteMemory Library.Interleaving ArrayWrite Function List Option
open Library.ArrayWrite (Holds)

variable {ι : Type} [DecidableEq ι] {w : ℕ} {L : Layout w} {W W' : World ι L} {i j : ι}
  {v v' : View w} {cs xs : List (TChar w)} {k n : ℕ} {p : Ptr ι w}
  {strings : ι → Option (List (TChar w))} {src : Source ι w}

/-- What holds of a string between operations. -/
structure Sound (L : Layout w) (W : World ι L) (i : ι) : Prop where
  size_le : L.getSize (W.obj i) ≤ L.getCapacity (W.obj i)
  capacity_le : L.getCapacity (W.obj i) ≤ L.maxCapacity
  buffer : L.isLarge (W.obj i) = true → ∃ cells, W.heap (L.largeData (W.obj i)) = some cells ∧
    cells.length = L.getCapacity (W.obj i) + 1
  nul : (cells W i)[L.getSize (W.obj i)]? = some 0

/-- The strings of a world. -/
structure Inv (W : World ι L) (strings : ι → Option (List (TChar w))) : Prop where
  alive : ∀ i, W.alive i = (strings i).isSome
  keeps : ∀ i cs, strings i = some cs → ∃ v, Shows W i v ∧ v.Keeps L cs
  owned : W.heap.Owned (owner W)

section

omit [DecidableEq ι]

theorem Shows.cells (h : Shows W i v) : cells W i = v.cells := by
  rw [StringStorage.cells, h.address]
  obtain hv | ⟨a, hv⟩ := eq_none_or_eq_some v.address
  · rw [hv, elim_none, h.inline hv]
  · rw [hv, elim_some, h.block a hv, getD_some]

theorem Shows.sound (h : Shows W i v) (hkeeps : v.Keeps L cs) : Sound L W i := by
  have hlt := hkeeps.holds.length_lt
  have hmax := hkeeps.length_le
  have hsize := h.size.trans hkeeps.size
  have hcapacity := h.capacity
  refine ⟨by omega, by omega, fun hlarge => ?_, ?_⟩
  · obtain hv | ⟨a, hv⟩ := eq_none_or_eq_some v.address
    · rw [h.isLarge_none hv] at hlarge
      cases hlarge
    · exact ⟨v.cells, (h.isLarge_some hv).2 ▸ h.block a hv, hcapacity⟩
  · rw [h.cells, hsize]
    exact hkeeps.holds.nul

theorem Inv.sound (h : Inv W strings) (hi : W.alive i = true) : Sound L W i := by
  rw [h.alive i] at hi
  obtain ⟨cs, hcs⟩ := isSome_iff_exists.mp hi
  obtain ⟨v, hshows, hkeeps⟩ := h.keeps i cs hcs
  exact hshows.sound hkeeps

theorem Inv.contents (h : Inv W strings) : contents W = strings := by
  funext i
  cases hi : strings i with
  | none =>
    have halive := h.alive i
    rw [hi] at halive
    rw [StringStorage.contents, halive, isSome_none, if_neg Bool.false_ne_true]
  | some cs =>
    have halive := h.alive i
    rw [hi] at halive
    obtain ⟨v, hshows, hkeeps⟩ := h.keeps i cs hi
    rw [StringStorage.contents, halive, isSome_some, if_pos rfl, hshows.cells, hshows.size,
      hkeeps.size, hkeeps.holds.take]

theorem owner_alive (h : W.alive i = true) : owner W i = L.address (W.obj i) := if_pos h

theorem owner_dead (h : W.alive i = false) : owner W i = none :=
  if_neg (Bool.eq_false_iff.mp h)

theorem Inv.owner_none (h : Inv W strings) (hi : strings i = none) : owner W i = none := by
  have halive := h.alive i
  rw [hi] at halive
  rw [owner, halive, isSome_none, if_neg Bool.false_ne_true]

theorem Inv.owner_some (h : Inv W strings) (hi : strings i = some cs) (hshows : Shows W i v) :
    owner W i = v.address := by
  have halive := h.alive i
  rw [hi] at halive
  rw [owner, halive, isSome_some, if_pos rfl, hshows.address]

theorem owner_congr (hobj : W'.obj j = W.obj j) (halive : W'.alive j = W.alive j) :
    owner W' j = owner W j := by
  rw [owner, owner, hobj, halive]

end

theorem Inv.update (h : Inv W strings) (new : Option (List (TChar w)))
    (hobj : ∀ j, j ≠ i → W'.obj j = W.obj j) (halive : ∀ j, j ≠ i → W'.alive j = W.alive j)
    (hnew : W'.alive i = new.isSome)
    (hsame : ∀ a, owner W i ≠ some a → owner W' i ≠ some a → W'.heap a = W.heap a)
    (hfreed : ∀ a, owner W i = some a → owner W' i ≠ some a → W'.heap a = none)
    (hfresh : ∀ a, owner W' i = some a → owner W i ≠ some a → W.heap a = none)
    (hkeeps : ∀ cs, new = some cs → ∃ v, Shows W' i v ∧ v.Keeps L cs) :
    Inv W' (Function.update strings i new) := by
  constructor
  case alive =>
    intro j
    by_cases hj : j = i
    · rw [hj, update_self, hnew]
    · rw [update_of_ne hj, halive j hj, h.alive j]
  case keeps =>
    intro j cs hcs
    by_cases hj : j = i
    · rw [hj, update_self] at hcs
      rw [hj]
      exact hkeeps cs hcs
    · rw [update_of_ne hj] at hcs
      obtain ⟨v, hshows, hv⟩ := h.keeps j cs hcs
      refine ⟨v, hshows.transfer (hobj j hj) fun a ha => ?_, hv⟩
      have hjown : owner W j = some a := (h.owner_some hcs hshows).trans ha
      have hne : owner W i ≠ some a := fun hi => hj (h.owned.unique j i a hjown hi)
      have hne' : owner W' i ≠ some a := by
        intro hi
        have hblock := hshows.block a ha
        rw [hfresh a hi hne] at hblock
        cases hblock
      exact hsame a hne hne'
  case owned =>
    have hown : owner W' = Function.update (owner W) i (owner W' i) := by
      funext j
      by_cases hj : j = i
      · rw [hj, update_self]
      · rw [update_of_ne hj, owner_congr (hobj j hj) (halive j hj)]
    rw [hown]
    refine h.owned.update (owner W' i) hsame hfreed hfresh fun a ha => ?_
    cases hn : new with
    | none =>
      rw [owner, hnew, hn, isSome_none, if_neg Bool.false_ne_true] at ha
      cases ha
    | some cs =>
      obtain ⟨v, hshows, -⟩ := hkeeps cs hn
      rw [owner, hnew, hn, isSome_some, if_pos rfl, hshows.address] at ha
      rw [hshows.block a ha]
      rfl

theorem Inv.change (h : Inv W strings) (hi : strings i = some cs) (hshows : Shows W i v)
    (hchanges : Changes W W' i v v') (hkeeps : v'.Keeps L xs) :
    Inv W' (Function.update strings i (some xs)) := by
  have hown := h.owner_some hi hshows
  have halive := h.alive i
  rw [hi] at halive
  have hown' : owner W' i = v'.address := by
    rw [owner, hchanges.alive, halive, isSome_some, if_pos rfl, hchanges.shows.address]
  refine h.update (some xs) hchanges.obj (fun j _ => congrFun hchanges.alive j) ?_ ?_ ?_ ?_ ?_
  · rw [hchanges.alive, halive]
    rfl
  · rw [hown, hown']
    exact hchanges.same
  · rw [hown, hown']
    exact hchanges.freed
  · rw [hown, hown']
    exact hchanges.fresh
  · intro cs' hcs'
    cases hcs'
    exact ⟨v', hchanges.shows, hkeeps⟩

omit [DecidableEq ι] in
theorem shows_initEmpty (hL : L.Lawful) {m : Bytes} (hobj : W.obj i = L.initEmpty m) :
    Shows W i ⟨none, inlineCells L (L.initEmpty m), 0⟩ ∧
      View.Keeps L ⟨none, inlineCells L (L.initEmpty m), 0⟩ [] := by
  obtain ⟨hlarge, hsize, hnul⟩ := hL.initEmpty m
  have hlength := length_inlineCells L (L.initEmpty m)
  have hinline := hL.inline_le
  refine ⟨⟨?_, ?_, ?_, fun _ => ?_, nofun⟩, rfl, ?_, ?_⟩
  · rw [hobj, Layout.address, hlarge, if_neg Bool.false_ne_true]
  · rw [hobj, hsize]
  · rw [hobj, hL.capacity_inline _ hlarge, hlength]
  · rw [hobj]
  · have hunit : loadUnit w (L.initEmpty m) 0 = 0 := Fin.ext hnul
    have hcells : inlineCells L (L.initEmpty m) = 0 :: (map Nat.succ (range L.inlineCapacity)).map
          (loadUnit w (L.initEmpty m)) := by
      rw [inlineCells, range_succ_eq_map, map_cons, hunit]
    exact ⟨_, hcells⟩
  · rw [hlength]
    omega

theorem Inv.construct (hL : L.Lawful) (h : Inv W strings) (hi : strings i = none) (m : Bytes) :
    Inv ((W.setObj i (L.initEmpty m)).setAlive i true) (Function.update strings i (some [])) := by
  have hobj : ((W.setObj i (L.initEmpty m)).setAlive i true).obj i = L.initEmpty m :=
    update_self i _ W.obj
  obtain ⟨hshows, hkeeps⟩ := shows_initEmpty hL hobj
  have hown := h.owner_none hi
  refine h.update (some []) (fun j hj => update_of_ne hj _ _)
    (fun j hj => update_of_ne hj _ _) (update_self i _ _) (fun _ _ _ => rfl) ?_ ?_ ?_
  · intro a ha
    rw [hown] at ha
    cases ha
  · intro a ha
    have halive : ((W.setObj i (L.initEmpty m)).setAlive i true).alive i = true :=
      update_self i _ W.alive
    rw [owner_alive halive, hshows.address] at ha
    cases ha
  · intro cs hcs
    cases hcs
    exact ⟨_, hshows, hkeeps⟩

theorem Inv.deallocate (hL : L.Lawful) (h : Inv W strings) (hi : strings i = some cs) :
    ∃ heap, deallocateLarge W i = .ok (W.setHeap heap) ∧
      Inv ((W.setHeap heap).setAlive i false) (Function.update strings i none) := by
  obtain ⟨v, hshows, hkeeps⟩ := h.keeps i cs hi
  obtain ⟨heap, hheap, hfreed, hsame⟩ := hshows.deallocateLarge hL hkeeps.length_le
  have hown := h.owner_some hi hshows
  refine ⟨heap, hheap, h.update none (fun _ _ => rfl) (fun j hj => update_of_ne hj _ _)
    (update_self i _ _) ?_ ?_ ?_ nofun⟩
  · intro a ha _
    exact hsame a (hown ▸ ha)
  · intro a ha _
    exact hfreed a (hown ▸ ha)
  · intro a ha
    have halive : ((W.setHeap heap).setAlive i false).alive i = false :=
      update_self i _ W.alive
    rw [owner_dead halive] at ha
    cases ha

theorem Shows.clear (hL : L.Lawful) (hshows : Shows W i v) (hkeeps : v.Keeps L cs) :
    ∃ W₁ v', StringStorage.deallocateLarge W i = .ok W₁ ∧ W₁.obj i = W.obj i ∧
      Changes W (W₁.setObj i (L.initEmpty (W.obj i))) i v v' ∧ v'.Keeps L [] := by
  obtain ⟨heap, hheap, hfreed, hsame⟩ := hshows.deallocateLarge hL hkeeps.length_le
  have hobj : ((W.setHeap heap).setObj i (L.initEmpty (W.obj i))).obj i = L.initEmpty (W.obj i) :=
    update_self i _ W.obj
  obtain ⟨hshows', hkeeps'⟩ := shows_initEmpty hL hobj
  exact ⟨_, _, hheap, rfl, ⟨hshows', fun j hj => update_of_ne hj _ _, rfl,
    fun a ha _ => hsame a ha, fun a ha _ => hfreed a ha, nofun⟩, hkeeps'⟩

theorem Inv.move (h : Inv W strings) (hi : strings i = none) (hj : strings j = some cs)
    (hobj : ∀ k, k ≠ i → k ≠ j → W'.obj k = W.obj k) (hheap : W'.heap = W.heap)
    (halive : W'.alive = Function.update W.alive i true)
    (hshows : Shows W' i v) (hkeeps : v.Keeps L cs) (hv : v.address = owner W j)
    (hshows' : Shows W' j v') (hkeeps' : v'.Keeps L []) (hv' : v'.address = none) :
    Inv W' (Function.update (Function.update strings i (some cs)) j (some [])) := by
  have hij : i ≠ j := by
    rintro rfl
    rw [hi] at hj
    cases hj
  have hjalive := h.alive j
  rw [hj] at hjalive
  constructor
  case alive =>
    intro k
    rw [halive]
    by_cases hkj : k = j
    · rw [hkj, update_self, update_of_ne hij.symm, hjalive]
      rfl
    · rw [update_of_ne hkj]
      by_cases hki : k = i
      · rw [hki, update_self, update_self]
        rfl
      · rw [update_of_ne hki, update_of_ne hki, h.alive k]
  case keeps =>
    intro k ds hds
    by_cases hkj : k = j
    · rw [hkj, update_self] at hds
      cases hds
      exact ⟨v', hkj ▸ hshows', hkeeps'⟩
    · rw [update_of_ne hkj] at hds
      by_cases hki : k = i
      · rw [hki, update_self] at hds
        cases hds
        exact ⟨v, hki ▸ hshows, hkeeps⟩
      · rw [update_of_ne hki] at hds
        obtain ⟨u, hu, hukeeps⟩ := h.keeps k ds hds
        exact ⟨u, hu.transfer (hobj k hki hkj) fun a _ => congrFun hheap a, hukeeps⟩
  case owned =>
    have hown : owner W' = Function.update (Function.update (owner W) i (owner W j)) j none := by
      funext k
      by_cases hkj : k = j
      · rw [hkj, update_self, owner, halive, update_of_ne hij.symm, hjalive,
          isSome_some, if_pos rfl, hshows'.address, hv']
      · rw [update_of_ne hkj]
        by_cases hki : k = i
        · rw [hki, update_self, owner, halive, update_self, if_pos rfl,
            hshows.address, hv]
        · rw [update_of_ne hki]
          refine owner_congr (hobj k hki hkj) ?_
          rw [halive, update_of_ne hki]
    rw [hown, hheap]
    exact h.owned.handOver (h.owner_none hi) hij

/-! The source of a copy. -/

section

omit [DecidableEq ι]

theorem Inv.read_source (h : Inv W strings) (hvalid : src.Valid strings)
    (hn : n ≤ (src.units strings).length) :
    read W (src.ptr W) n = some ((src.units strings).take n) := by
  cases src with
  | null =>
    have hzero : n = 0 := Nat.le_zero.mp hn
    rw [hzero]
    rfl
  | chars units =>
    have hn : 0 + n ≤ units.length := by
      rw [Nat.zero_add]
      exact hn
    exact read_eq hn
  | part j start =>
    obtain ⟨cs, hcs, hstart⟩ := (any_eq_true _ _).mp hvalid
    obtain ⟨v, hshows, hkeeps⟩ := h.keeps j cs hcs
    have hunits : (Source.part j start).units strings = cs.drop start := by
      rw [Source.units, hcs, getD_some]
    have hstart := of_decide_eq_true hstart
    rw [hunits, length_drop] at hn
    rw [hunits]
    exact hshows.read_chars hkeeps (by omega)

theorem length_of_read (h : read W p n = some xs) : xs.length = n := by
  cases p with
  | null =>
    have h : (if n = 0 then some [] else none) = some xs := h
    split at h
    case isTrue hn =>
      cases h
      exact hn.symm
    case isFalse => cases h
  | chars units => exact (length_read h).1
  | inline j start => exact (length_read h).1
  | block a start =>
    obtain ⟨cells, -, hcells⟩ := bind_eq_some_iff.mp h
    exact (length_read hcells).1

theorem nil_of_read (hnil : p.isNull = true ∨ n = 0)
    (hread : (p.isNull = true ∧ xs = []) ∨ read W p n = some xs) : xs = [] := by
  obtain ⟨-, hxs⟩ | hread := hread
  · exact hxs
  · obtain hnull | hn := hnil
    · cases p with
      | null =>
        have hread : (if n = 0 then some [] else none) = some xs := hread
        split at hread
        case isTrue => exact (Option.some.inj hread).symm
        case isFalse => cases hread
      | _ => cases hnull
    · rw [hn] at hread
      exact length_eq_zero_iff.mp (length_of_read hread)

theorem cstr_prefix : src.cstr strings <+: src.units strings := takeWhile_prefix _

theorem take_cstr : (src.units strings).take (src.cstr strings).length = src.cstr strings :=
  (prefix_iff_eq_take.mp cstr_prefix).symm

theorem Inv.countStringLength (h : Inv W strings) (hterm : src.Terminated strings) :
    countStringLength W (src.ptr W) = .ok (src.cstr strings).length := by
  cases src with
  | null => exact absurd hterm id
  | chars units => exact if_pos hterm
  | part j start =>
    obtain ⟨cs, hcs, hstart⟩ := (any_eq_true _ _).mp hterm
    have hstart := of_decide_eq_true hstart
    obtain ⟨v, hshows, hkeeps⟩ := h.keeps j cs hcs
    obtain ⟨rest, hcells⟩ := hkeeps.holds
    have hreadable : readable W ((Source.part j start).ptr W) = cs.drop start ++ 0 :: rest := by
      have hdrop : readable W ((getData W j).add start) = v.cells.drop start := by
        rw [hshows.getData]
        obtain hv | ⟨a, hv⟩ := eq_none_or_eq_some v.address
        · rw [hv, elim_none, Ptr.add, Nat.zero_add, readable, ← hshows.inline hv]
        · rw [hv, elim_some, Ptr.add, Nat.zero_add, readable, hshows.block a hv,
            getD_some]
      rw [Source.ptr, hdrop, hcells, drop_append_of_le_length hstart]
    have hunits : (Source.part j start).cstr strings = (cs.drop start).takeWhile (· ≠ 0) := by
      rw [Source.cstr, Source.units, hcs, getD_some]
    have htake : ∀ l : List (TChar w),
        (l ++ 0 :: rest).takeWhile (· ≠ 0) = l.takeWhile (· ≠ 0) := by
      intro l
      induction l with
      | nil => simp
      | cons x l ih =>
        rw [cons_append, takeWhile_cons, takeWhile_cons, ih]
    have hmem : 0 ∈ cs.drop start ++ 0 :: rest := by simp
    rw [StringStorage.countStringLength, hreadable, if_pos hmem, htake, hunits]

end

def Ptr.Outside {w : ℕ} (i : ι) (address : Option ℕ) : Ptr ι w → Prop
  | .inline j _ => j ≠ i
  | .block a _ => address ≠ some a
  | _ => True

def Source.Apart {w : ℕ} (i : ι) : Source ι w → Prop
  | .part j _ => j ≠ i
  | _ => True

section

omit [DecidableEq ι]

theorem Inv.outside_source (h : Inv W strings) (hvalid : src.Valid strings) (hapart : src.Apart i) :
    (src.ptr W).Outside i (owner W i) := by
  cases src with
  | null => trivial
  | chars units => trivial
  | part j start =>
    obtain ⟨cs, hcs, -⟩ := (any_eq_true _ _).mp hvalid
    obtain ⟨v, hshows, hkeeps⟩ := h.keeps j cs hcs
    have hown := h.owner_some hcs hshows
    rw [Source.ptr, hshows.getData]
    obtain hv | ⟨a, hv⟩ := eq_none_or_eq_some v.address
    · rw [hv]
      exact hapart
    · rw [hv]
      intro hi
      exact hapart (h.owned.unique j i a (hown.trans hv) hi)

theorem Changes.outside (h : Changes W W' i v v') (hp : p.Outside i v.address)
    (hread : read W p n = some xs) : p.Outside i v'.address ∧ read W' p n = some xs := by
  cases p with
  | null => exact ⟨trivial, hread⟩
  | chars units => exact ⟨trivial, hread⟩
  | inline j start =>
    refine ⟨hp, ?_⟩
    rw [read, h.obj j hp]
    exact hread
  | block a start =>
    have hv' : v'.address ≠ some a := by
      intro hv'
      have hsome := BlockHeap.isSome_of_read hread
      rw [h.fresh a hv' hp] at hsome
      cases hsome
    exact ⟨hv', (BlockHeap.read_congr (h.same a hp hv')).trans hread⟩

end

theorem Shows.not_overlaps (h : Shows W i v) (hp : p.Outside i v.address) :
    Ptr.overlaps n ((StringStorage.getData W i).add k) p = false := by
  rw [h.getData]
  obtain hv | ⟨a, hv⟩ := eq_none_or_eq_some v.address
  · rw [hv, elim_none, Ptr.add]
    cases p with
    | inline j start => exact decide_eq_false fun h => hp h.1.symm
    | _ => rfl
  · rw [hv, elim_some, Ptr.add]
    cases p with
    | block b start =>
      refine decide_eq_false fun h => hp ?_
      rw [hv, h.1]
    | _ => rfl

theorem Shows.not_overlaps_own (h : Shows W i v) {start : ℕ} (hk : start + n ≤ k) :
    Ptr.overlaps n ((StringStorage.getData W i).add k)
      ((StringStorage.getData W i).add start) = false := by
  rw [h.getData]
  obtain hv | ⟨a, hv⟩ := eq_none_or_eq_some v.address
  · rw [hv, elim_none, Ptr.add, Ptr.add]
    exact decide_eq_false (by omega)
  · rw [hv, elim_some, Ptr.add, Ptr.add]
    exact decide_eq_false (by omega)

/-! Steps compared with the operations on lists. -/

section Refinement

variable {r : Except Halt (World ι L)} {fresh : Fresh w}

/-- A step ends the program because there is no room, or does what the lists do. -/
def Refines (r : Except Halt (World ι L)) (strings : ι → Option (List (TChar w)))
    (fresh : Fresh w) (n : ℕ) : Prop :=
  (r = .error .fatal ∧ Short L fresh n) ∨ ∃ W', r = .ok W' ∧ Inv W' strings

theorem Inv.refines (h : Inv W strings) (hi : strings i = some cs)
    (hyields : ∀ v, Shows W i v → v.Keeps L cs → Yields r W i v xs (Short L fresh n)) :
    Refines r (Function.update strings i (some xs)) fresh n := by
  obtain ⟨v, hshows, hkeeps⟩ := h.keeps i cs hi
  obtain hfatal | ⟨W', v', hr, hchanges, hkeeps'⟩ := hyields v hshows hkeeps
  · exact .inl hfatal
  · exact .inr ⟨W', hr, h.change hi hshows hchanges hkeeps'⟩

theorem Inv.refines_same (h : Inv W strings) (hi : strings i = some cs)
    (hyields : ∀ v, Shows W i v → v.Keeps L cs → Yields r W i v cs (Short L fresh n)) :
    Refines r strings fresh n := by
  have hrefines := h.refines hi hyields
  rwa [← hi, update_eq_self] at hrefines

theorem Inv.refines_new (hL : L.Lawful) (h : Inv W strings) (hi : strings i = none) (m : Bytes)
    (hyields : ∀ v, Shows ((W.setObj i (L.initEmpty m)).setAlive i true) i v → v.Keeps L [] →
      Yields r ((W.setObj i (L.initEmpty m)).setAlive i true) i v xs (Short L fresh n)) :
    Refines r (Function.update strings i (some xs)) fresh n := by
  have hrefines := (h.construct hL hi m).refines (update_self i _ strings) hyields
  rwa [update_idem] at hrefines

theorem Inv.refines_destroy (hL : L.Lawful) (h : Inv W strings) (hi : (strings i).isSome) :
    Refines (deallocateLarge W i >>= fun W => pure (W.setAlive i false))
      (Function.update strings i none) fresh 0 := by
  obtain ⟨cs, hcs⟩ := isSome_iff_exists.mp hi
  obtain ⟨heap, hheap, hinv⟩ := h.deallocate hL hcs
  rw [hheap]
  exact .inr ⟨_, rfl, hinv⟩

omit [DecidableEq ι] in
theorem ne_of_none (hi : strings i = none) (hj : strings j = some cs) : i ≠ j := by
  rintro rfl
  rw [hi] at hj
  cases hj

/-- A string counts as gone between the two halves of a move. -/
theorem Inv.alive_again (h : Inv W strings) (hi : strings i = some cs) :
    Function.update (Function.update W.alive i false) i true = W.alive := by
  have halive : W.alive i = true := by rw [h.alive i, hi, isSome_some]
  rw [update_idem, ← halive, update_eq_self]

section

omit [DecidableEq ι]

theorem Inv.read_or_null (h : Inv W strings) (hsrc : src.Valid strings)
    (hlen : src.isNull = true ∨ n ≤ (src.units strings).length) :
    ((src.ptr W).isNull = true ∧ (src.units strings).take n = []) ∨
      read W (src.ptr W) n = some ((src.units strings).take n) := by
  obtain hnull | hlen := hlen
  · cases src with
    | null => exact .inl ⟨rfl, take_nil⟩
    | chars units => cases hnull
    | part j start => cases hnull
  · exact .inr (h.read_source hsrc hlen)

theorem ptr_part (W : World ι L) (j : ι) : (Source.part j 0).ptr W = getData W j :=
  Ptr.add_zero (getData W j)

theorem part_whole (hj : strings j = some cs) :
    (Source.part j 0).units strings = cs ∧ (Source.part j 0).Valid strings := by
  have hany : (strings j).any (0 ≤ ·.length) = true := by
    rw [hj]
    rfl
  exact ⟨by rw [Source.units, hj, getD_some, drop_zero], hany⟩

theorem inv_empty (bytes : ι → Bytes) :
    Inv (⟨bytes, fun _ => false, fun _ => none⟩ : World ι L) fun _ => none := by
  refine ⟨fun _ => rfl, nofun, fun i a ha => ?_, fun i j a ha => ?_, nofun⟩
  · cases ha
  · cases ha

/-- In every run whose steps do what the lists do, or end the program for want of room, a string
is within its capacity and terminated, and every buffer has one owner. -/
theorem refines_sound {Act : Type} {M : Machine (World ι L) Act}
    {step : World ι L → Act → Except Halt (World ι L)} (Guard : World ι L → Act → Prop)
    (apply : Act → (ι → Option (List (TChar w))) → ι → Option (List (TChar w)))
    (fresh : Act → Fresh w) (needs : Act → (ι → Option (List (TChar w))) → ℕ)
    (hM : ∀ W a, M.step W a = (step W a).toOption) (hinit : Inv M.init (contents M.init))
    (hstep : ∀ W a, Inv W (contents W) → Guard W a →
      Refines (step W a) (apply a (contents W)) (fresh a) (needs a (contents W)))
    (e : Execution M) (hguard : ∀ n a, e.act n = some a → Guard (e.state n) a) (n : ℕ) :
    (∀ i, (e.state n).alive i = true → Sound L (e.state n) i) ∧
      (e.state n).heap.Owned (owner (e.state n)) ∧
      ∀ a, Guard (e.state n) a → (step (e.state n) a = .error .fatal ∧
        Short L (fresh a) (needs a (contents (e.state n)))) ∨
          ∃ W', step (e.state n) a = .ok W' ∧ contents W' = apply a (contents (e.state n)) := by
  have hinv : ∀ W a W', Inv W (contents W) → Guard W a → M.step W a = some W' →
      Inv W' (contents W') := by
    intro W a W' hinv ha hs
    rw [hM] at hs
    obtain ⟨hfatal, -⟩ | ⟨W₁, hW₁, hinv'⟩ := hstep W a hinv ha
    · rw [hfatal] at hs
      cases hs
    · rw [hW₁] at hs
      cases hs
      rwa [hinv'.contents]
  have hinv : Inv (e.state n) (contents (e.state n)) := e.invariant hinit hinv hguard n
  refine ⟨fun i hi => hinv.sound hi, hinv.owned, fun a ha => ?_⟩
  exact (hstep _ a hinv ha).imp_right fun ⟨W', hW', hinv'⟩ => ⟨W', hW', hinv'.contents⟩

end

end Refinement

end Equilibrium.StringStorage
