import Equilibrium.Strings.StringStorage

/-! What the modifiers of the string classes do: they end the program because the string
would be too long or the allocator refuses, or they change the characters as the operation
on lists does. -/

namespace Equilibrium.StringStorage

open Library Library.ByteMemory
open Function (update update_self update_of_ne)
open Library.ArrayWrite (Holds)

variable {ι : Type} [DecidableEq ι] {w : ℕ} {L : Layout w} {W W' : World ι L} {i : ι}
  {v v' : View w} {cs ds xs cells : List (TChar w)} {a k m n : ℕ}
  {p : Ptr ι w} {fresh : Fresh w} {c : TChar w}

/-- No room for `n` characters can be had. -/
def Short (L : Layout w) (fresh : Fresh w) (n : ℕ) : Prop :=
  L.maxCapacity < n ∨ fresh.address = 0

/-- The end of the program, for a reason, or a change of one string to a list of
characters. -/
def Yields (r : Except Halt (World ι L)) (W : World ι L) (i : ι) (v : View w)
    (cs : List (TChar w)) (reason : Prop) : Prop :=
  (r = .error .fatal ∧ reason) ∨
    ∃ W' v', r = .ok W' ∧ Changes W W' i v v' ∧ v'.Keeps L cs

/-- Room for `n` characters, with the string as it is. -/
def Grows (r : Except Halt (World ι L)) (W : World ι L) (i : ι) (v : View w)
    (cs : List (TChar w)) (fresh : Fresh w) (n : ℕ) : Prop :=
  (r = .error .fatal ∧ Short L fresh n) ∨
    ∃ W' v', r = .ok W' ∧ Changes W W' i v v' ∧ v'.Keeps L cs ∧ n < v'.cells.length

/-! A buffer that no string has yet. -/

def withBlock (W : World ι L) (a : ℕ) (cells : List (TChar w)) : World ι L :=
  W.setHeap (W.heap.allocate a cells)

theorem bufferByteSize_eq (hL : L.Lawful) (hn : n ≤ L.maxCapacity) :
    bufferByteSize w n = (n + 1) * w := by
  refine Nat.mod_eq_of_lt (Nat.lt_of_le_of_lt ?_ hL.bytes_lt)
  exact Nat.mul_le_mul_right w (by omega)

omit [DecidableEq ι] in
theorem allocateBuffer_cases (hL : L.Lawful) (fresh : Fresh w) (W : World ι L)
    (n : ℕ) : (allocateBuffer fresh W n = .error .fatal ∧ Short L fresh n) ∨
      (n ≤ L.maxCapacity ∧ fresh.address ≠ 0 ∧ ∃ cells, cells.length = n + 1 ∧
        allocateBuffer fresh W n = .ok (withBlock W fresh.address cells)) := by
  unfold allocateBuffer
  by_cases hn : n ≤ L.maxCapacity
  · by_cases ha : fresh.address ≠ 0
    · rw [if_pos hn, if_pos ha]
      refine .inr ⟨hn, ha, _, ?_, rfl⟩
      rw [List.length_map, List.length_range, bufferByteSize_eq hL hn,
        Nat.mul_div_cancel _ hL.width_pos]
    · rw [if_pos hn, if_neg ha]
      exact .inl ⟨rfl, .inr (not_not.mp ha)⟩
  · rw [if_neg hn]
    exact .inl ⟨rfl, .inl (Nat.lt_of_not_le hn)⟩

theorem write_withBlock {cells' : List (TChar w)}
    (hwrite : ArrayWrite.write cells k xs = some cells') :
    write (withBlock W a cells) (.block a k) xs = some (withBlock W a cells') := by
  have hself : (withBlock W a cells).heap a = some cells := BlockHeap.allocate_self
  rw [write, BlockHeap.write_eq hself hwrite, Option.map_some]
  exact congrArg (fun heap => some (W.setHeap heap)) (BlockHeap.allocate_allocate cells')

omit [DecidableEq ι] in
/-- A read does not see the new buffer. -/
theorem read_withBlock (ha : W.heap a = none) (hread : read W p n = some xs) :
    read (withBlock W a cells) p n = some xs := by
  cases p with
  | null => exact hread
  | chars units => exact hread
  | inline j start => exact hread
  | block b start =>
    have hne : b ≠ a := by
      rintro rfl
      have hsome := BlockHeap.isSome_of_read hread
      rw [ha] at hsome
      cases hsome
    exact (BlockHeap.read_congr (BlockHeap.allocate_of_ne hne)).trans hread

theorem memCopy_withBlock {cells' : List (TChar w)} (ha : W.heap a = none)
    (hread : read W p n = some xs) (hwrite : ArrayWrite.write cells k xs = some cells') :
    memCopy (withBlock W a cells) (.block a k) p n = .ok (withBlock W a cells') := by
  have hover : Ptr.overlaps n (.block a k) p = false := by
    cases p with
    | null => rfl
    | chars units => rfl
    | inline j start => rfl
    | block b start =>
      have hne : a ≠ b := by
        rintro rfl
        have hsome := BlockHeap.isSome_of_read hread
        rw [ha] at hsome
        cases hsome
      exact decide_eq_false fun h => hne h.1
  rw [memCopy, hover, if_neg Bool.false_ne_true, memMove, read_withBlock ha hread,
    Option.bind_some, write_withBlock hwrite]
  rfl

section

omit [DecidableEq ι]

theorem freeBuffer_eq (hL : L.Lawful) (hcells : W.heap a = some cells)
    (hlength : cells.length = n + 1) (hn : n ≤ L.maxCapacity) :
    freeBuffer W a (bufferByteSize w n) = .ok (W.setHeap (update W.heap a none)) := by
  rw [freeBuffer, bufferByteSize_eq hL hn, Nat.mul_mod_left, if_pos rfl,
    Nat.mul_div_cancel _ hL.width_pos, BlockHeap.free_eq hcells hlength]
  rfl

theorem Shows.deallocateLarge (hL : L.Lawful) (h : Shows W i v)
    (hmax : v.cells.length ≤ L.maxCapacity + 1) :
    ∃ heap, deallocateLarge W i = .ok (W.setHeap heap) ∧ (∀ a, v.address = some a → heap a = none) ∧
      ∀ a, v.address ≠ some a → heap a = W.heap a := by
  have hcapacity := h.capacity
  obtain hv | ⟨a, hv⟩ := Option.eq_none_or_eq_some v.address
  · refine ⟨W.heap, ?_, fun a ha => ?_, fun _ _ => rfl⟩
    · rw [StringStorage.deallocateLarge, h.isLarge_none hv, if_neg Bool.false_ne_true]
      rfl
    · rw [hv] at ha
      cases ha
  · obtain ⟨hlarge, hdata⟩ := h.isLarge_some hv
    refine ⟨update W.heap a none, ?_, fun b hb => ?_, fun b hb => ?_⟩
    · rw [StringStorage.deallocateLarge, hlarge, if_pos rfl, hdata]
      exact freeBuffer_eq hL (h.block a hv) hcapacity (by omega)
    · obtain rfl : a = b := Option.some.inj (hv.symm.trans hb)
      exact update_self a none W.heap
    · have hne : b ≠ a := fun hba => hb (by rw [hba, hv])
      exact update_of_ne hne none W.heap

theorem Shows.withBlock (h : Shows W i v) (ha : W.heap a = none) :
    Shows (withBlock W a cells) i v := by
  refine ⟨h.address, h.size, h.capacity, h.inline, fun b hb => ?_⟩
  have hne : b ≠ a := by
    rintro rfl
    rw [h.block b hb] at ha
    cases ha
  exact (BlockHeap.allocate_of_ne hne).trans (h.block b hb)

end

theorem Shows.replace (hL : L.Lawful) (h : Shows W i v)
    (hmax : v.cells.length ≤ L.maxCapacity + 1) (ha : W.heap a = none)
    (hlength : cells.length = n + 1) {m : Bytes}
    (hm : L.isLarge m = true ∧ L.largeData m = a ∧ L.getSize m = k ∧ L.getCapacity m = n) :
    ∃ W₁, StringStorage.deallocateLarge (StringStorage.withBlock W a cells) i = .ok W₁ ∧
      W₁.obj i = W.obj i ∧ Changes W (W₁.setObj i m) i v ⟨some a, cells, k⟩ := by
  have hnew : Shows (StringStorage.withBlock W a cells) i v := h.withBlock ha
  obtain ⟨heap, hW₁, hfreed, hsame⟩ := hnew.deallocateLarge hL hmax
  refine ⟨_, hW₁, rfl, ?_⟩
  have hne : v.address ≠ some a := by
    intro hv
    rw [h.block a hv] at ha
    cases ha
  obtain ⟨hlarge, hdata, hsize, hcapacity⟩ := hm
  have hobj : (((StringStorage.withBlock W a cells).setHeap heap).setObj i m).obj i = m :=
    update_self i _ W.obj
  refine ⟨⟨?_, ?_, ?_, nofun, ?_⟩, fun j hj => update_of_ne hj _ _, rfl, ?_, ?_, ?_⟩
  · rw [hobj, Layout.address, hlarge, if_pos rfl, hdata]
  · rw [hobj, hsize]
  · rw [hobj, hcapacity]
    exact hlength
  · intro b hb
    obtain rfl : a = b := Option.some.inj hb
    exact (hsame a hne).trans BlockHeap.allocate_self
  · intro b hb hba
    exact (hsame b hb).trans (BlockHeap.allocate_of_ne fun h => hba (congrArg some h.symm))
  · intro b hb _
    exact hfreed b hb
  · intro b hb _
    obtain rfl : a = b := Option.some.inj hb
    exact ha

theorem Shows.replace_keeps (hL : L.Lawful) (h : Shows W i v)
    (hmax : v.cells.length ≤ L.maxCapacity + 1) (ha : W.heap a = none) (hlt : a < 2 ^ 64)
    (hlength : cells.length = n + 1) (hn : n ≤ L.maxCapacity) (hholds : Holds 0 cells cs) :
    ∃ W₁, StringStorage.deallocateLarge (StringStorage.withBlock W a cells) i = .ok W₁ ∧
      Changes W (setLarge W₁ i a cs.length n) i v ⟨some a, cells, cs.length⟩ ∧
      View.Keeps L ⟨some a, cells, cs.length⟩ cs := by
  have hle := hholds.length_lt
  obtain ⟨W₁, hW₁, hobj, hchanges⟩ := h.replace hL hmax ha hlength
    (hL.setLarge (W.obj i) a cs.length n hlt (by omega) hn)
  rw [← hobj] at hchanges
  refine ⟨W₁, hW₁, hchanges, rfl, hholds, ?_⟩
  rw [hlength]
  omega

theorem Shows.freeOld (hL : L.Lawful) (h : Shows W i v) (hmax : v.cells.length ≤ L.maxCapacity + 1)
    (ha : v.address = some a) {m : Bytes} {v₁ : View w}
    (hchanges : Changes (W.setObj i m) W' i v₁ v') (hv₁ : v₁.address = none)
    (hv' : v'.address = none) :
    ∃ W'', freeBuffer W' a (bufferByteSize w (L.getCapacity (W.obj i))) = .ok W'' ∧
      Changes W W'' i v v' := by
  have hcapacity := h.capacity
  have hheap : ∀ b, W'.heap b = W.heap b := fun b =>
    hchanges.same b (hv₁ ▸ nofun) (hv' ▸ nofun)
  refine ⟨_, freeBuffer_eq hL ((hheap a).trans (h.block a ha)) hcapacity (by omega),
    ⟨⟨hchanges.shows.address, hchanges.shows.size, hchanges.shows.capacity,
      hchanges.shows.inline, ?_⟩, ?_, hchanges.alive, ?_, ?_, ?_⟩⟩
  · intro b hb
    rw [hv'] at hb
    cases hb
  · intro j hj
    exact (hchanges.obj j hj).trans (update_of_ne hj _ _)
  · intro b hb _
    exact (update_of_ne (fun hba => hb (by rw [hba, ha])) _ _).trans (hheap b)
  · intro b hb _
    obtain rfl : a = b := Option.some.inj (ha.symm.trans hb)
    exact update_self a none W'.heap
  · intro b hb
    rw [hv'] at hb
    cases hb

section

omit [DecidableEq ι]

theorem Shows.read_chars (h : Shows W i v) (hkeeps : v.Keeps L cs) (hle : k + n ≤ cs.length) :
    StringStorage.read W ((StringStorage.getData W i).add k) n = some ((cs.drop k).take n) := by
  rw [h.read]
  exact hkeeps.holds.read hle

theorem Ptr.add_zero (p : Ptr ι w) : p.add 0 = p := by
  cases p <;> rfl

theorem Shows.read_all (h : Shows W i v) (hkeeps : v.Keeps L cs) :
    StringStorage.read W (StringStorage.getData W i) cs.length = some cs := by
  have hread := h.read_chars hkeeps (Nat.le_of_eq (Nat.zero_add cs.length))
  rwa [Ptr.add_zero, List.drop_zero, List.take_length] at hread

theorem Shows.read_block (h : Shows W i v) (hkeeps : v.Keeps L cs) (ha : v.address = some a) :
    StringStorage.read W (.block a 0) cs.length = some cs := by
  have hread := h.read_all hkeeps
  rwa [h.getData, ha] at hread

end

theorem copy_withBlock {cells' : List (TChar w)} (ha : W.heap a = none)
    (hread : read W p cs.length = some cs) (hwrite : ArrayWrite.write cells 0 cs = some cells') :
    (if cs.length > 0 then memCopy (withBlock W a cells) (.block a 0) p cs.length
      else .ok (withBlock W a cells)) = .ok (withBlock W a cells') := by
  by_cases hpos : cs.length > 0
  · rw [if_pos hpos]
    exact memCopy_withBlock ha hread hwrite
  · obtain rfl := List.length_eq_zero_iff.mp (Nat.eq_zero_of_not_pos hpos)
    rw [if_neg hpos]
    obtain ⟨-, rfl⟩ := ArrayWrite.write_eq_some.mp hwrite
    rfl

theorem reallocate_spec (hL : L.Lawful) (h : Shows W i v) (hkeeps : v.Keeps L cs)
    (hvalid : fresh.Valid W) (hle : cs.length ≤ n) :
    (reallocate fresh W i n = .error .fatal ∧ Short L fresh n) ∨
      ∃ W' v', reallocate fresh W i n = .ok W' ∧ Changes W W' i v v' ∧ v'.Keeps L cs ∧
        v'.cells.length = n + 1 := by
  unfold reallocate
  obtain ⟨hfatal, hshort⟩ | ⟨hn, hne, cells, hlength, hallocate⟩ :=
    allocateBuffer_cases hL fresh W n
  · rw [hfatal]
    exact .inl ⟨rfl, hshort⟩
  · obtain ⟨ha, hlt⟩ := hvalid hne
    have hsize : L.getSize ((withBlock W fresh.address cells).obj i) = cs.length :=
      h.size.trans hkeeps.size
    have hdata : getData (withBlock W fresh.address cells) i = getData W i := rfl
    obtain ⟨cells₁, cells₂, hwrite₁, hwrite₂, hlength₂, hholds⟩ :=
      ArrayWrite.write_front (0 : TChar w) (show cs.length < cells.length by omega)
    have hcopy := copy_withBlock ha (h.read_all hkeeps) hwrite₁
    obtain ⟨W₁, hW₁, hchanges, hkeeps'⟩ := h.replace_keeps hL hkeeps.length_le ha hlt
      (hlength₂.trans hlength) hn hholds
    refine .inr ⟨_, _, ?_, hchanges, hkeeps', hlength₂.trans hlength⟩
    rw [hallocate]
    simp only [bind, Except.bind, hsize, hdata, hcopy, write_withBlock hwrite₂, check, hW₁, pure,
      Except.pure]

theorem Shows.write_finish (xs : List (TChar w)) (hL : L.Lawful) (h : Shows W i v)
    (hkeeps : v.Keeps L cs) (hk : k ≤ cs.length) (hroom : k + xs.length < v.cells.length) :
    ∃ W₁ W' v', StringStorage.write W ((StringStorage.getData W i).add k) xs = some W₁ ∧
      StringStorage.finish W₁ i (k + xs.length) = .ok W' ∧ Changes W W' i v v' ∧
      v'.Keeps L (cs.take k ++ xs) := by
  obtain ⟨cells, hwrite⟩ := ArrayWrite.exists_write (show k + xs.length ≤ v.cells.length by omega)
  obtain ⟨W₁, hW₁, hchanges⟩ := h.write hL hwrite
  have htake := ArrayWrite.take_write hwrite
  rw [hkeeps.holds.take_of_le hk] at htake
  have hlength : (cs.take k ++ xs).length = k + xs.length := by
    rw [List.length_append, List.length_take]
    omega
  have hcells := ArrayWrite.length_write hwrite
  have hmax := hkeeps.length_le
  rw [← hlength] at htake
  obtain ⟨W', v', hW', hchanges', hkeeps', -⟩ := hchanges.shows.finish hL htake
    (by rw [hlength, hcells]; exact hroom) (by rw [hcells]; exact hmax)
  rw [hlength] at hW'
  exact ⟨W₁, W', v', hW₁, hW', hchanges.trans hchanges', hkeeps'⟩

/-! Rules for steps that the modifiers are made of. -/

section Rules

variable {r : Except Halt (World ι L)} {next : World ι L → Except Halt (World ι L)}

section

omit [DecidableEq ι]

theorem Grows.bind (hgrow : Grows r W i v cs fresh n)
    (hnext : ∀ W₁ v₁, Changes W W₁ i v v₁ → v₁.Keeps L cs → n < v₁.cells.length →
      Yields (next W₁) W₁ i v₁ xs (Short L fresh n)) :
    Yields (r >>= next) W i v xs (Short L fresh n) := by
  obtain ⟨rfl, hshort⟩ | ⟨W₁, v₁, rfl, hchanges, hkeeps, hroom⟩ := hgrow
  · exact .inl ⟨rfl, hshort⟩
  · obtain hfatal | ⟨W', v', hr, hchanges', hkeeps'⟩ := hnext W₁ v₁ hchanges hkeeps hroom
    · exact .inl hfatal
    · exact .inr ⟨W', v', hr, hchanges.trans hchanges', hkeeps'⟩

theorem Grows.yields (hgrow : Grows r W i v cs fresh n) : Yields r W i v cs (Short L fresh n) :=
  hgrow.imp_right fun ⟨W', v', hW', hchanges, hkeeps, _⟩ => ⟨W', v', hW', hchanges, hkeeps⟩

theorem Yields.checkedLengthSum {next : ℕ → Except Halt (World ι L)} (hL : L.Lawful)
    (hn : n ≤ L.sizeMax) (h : Yields (next (k + n)) W i v xs (Short L fresh (k + n))) :
    Yields (checkedLengthSum L k n >>= next) W i v xs (Short L fresh (k + n)) := by
  have hmax := hL.max_le
  unfold StringStorage.checkedLengthSum
  by_cases hk : k ≤ L.sizeMax - n
  · rw [if_pos hk]
    exact h
  · rw [if_neg hk]
    exact .inl ⟨rfl, .inl (by omega)⟩

end

theorem Shows.write_yields (xs : List (TChar w)) (hL : L.Lawful) (h : Shows W i v)
    (hkeeps : v.Keeps L cs) (hk : k ≤ cs.length) (hroom : k + xs.length < v.cells.length)
    (reason : Prop) :
    Yields (check (StringStorage.write W ((StringStorage.getData W i).add k) xs) >>= fun W =>
      StringStorage.finish W i (k + xs.length)) W i v (cs.take k ++ xs) reason := by
  obtain ⟨W₁, W', v', hW₁, hW', hchanges, hkeeps'⟩ := h.write_finish xs hL hkeeps hk hroom
  rw [hW₁]
  exact .inr ⟨W', v', hW', hchanges, hkeeps'⟩

theorem Shows.replace_yields (q : World ι L → Ptr ι w) (hL : L.Lawful) (h : Shows W i v)
    (hkeeps : v.Keeps L cs) (hvalid : fresh.Valid W) (hread : StringStorage.read W p n = some xs)
    (hlength : xs.length = n)
    (hq : ∀ cells, q (StringStorage.withBlock W fresh.address cells) = p) : Yields (do
      let W ← allocateBuffer fresh W n
      let W ← memCopy W (.block fresh.address 0) (q W) n
      let W ← check (StringStorage.write W (.block fresh.address n) [0])
      let W ← StringStorage.deallocateLarge W i
      return setLarge W i fresh.address n n) W i v xs (Short L fresh n) := by
  subst hlength
  obtain ⟨hfatal, hshort⟩ | ⟨hle, hne, cells, hlength, hallocate⟩ :=
    allocateBuffer_cases hL fresh W xs.length
  · rw [hfatal]
    exact .inl ⟨rfl, hshort⟩
  · obtain ⟨ha, hlt⟩ := hvalid hne
    obtain ⟨cells₁, cells₂, hwrite₁, hwrite₂, hlength₂, hholds⟩ :=
      ArrayWrite.write_front (0 : TChar w) (show xs.length < cells.length by omega)
    obtain ⟨W₁, hW₁, hchanges, hkeeps'⟩ := h.replace_keeps hL hkeeps.length_le ha hlt
      (hlength₂.trans hlength) hle hholds
    refine .inr ⟨_, _, ?_, hchanges, hkeeps'⟩
    rw [hallocate]
    simp only [bind, Except.bind, hq, memCopy_withBlock ha hread hwrite₁, write_withBlock hwrite₂,
      check, hW₁, pure, Except.pure]

end Rules

section

variable (grow : World ι L → ℕ → Except Halt (World ι L))
include grow

theorem fill_yields (hL : L.Lawful) (hgrow : Grows (grow W n) W i v [] fresh n) (h : Shows W i v)
    (hkeeps : v.Keeps L []) :
    Yields (fill grow W i n c) W i v (List.replicate n c) (Short L fresh n) := by
  unfold fill
  by_cases hn : n > 0
  · rw [if_pos hn]
    refine hgrow.bind fun W₁ v₁ hchanges hkeeps₁ hroom => ?_
    have hyields := hchanges.shows.write_yields (List.replicate n c) hL hkeeps₁ (Nat.zero_le _)
      (by simpa using hroom) (Short L fresh n)
    rwa [Ptr.add_zero, List.length_replicate, Nat.zero_add] at hyields
  · obtain rfl := Nat.eq_zero_of_not_pos hn
    rw [if_neg hn]
    exact .inr ⟨W, v, rfl, .refl h, hkeeps⟩

theorem resize_yields (hL : L.Lawful) (hgrow : Grows (grow W n) W i v cs fresh n) (h : Shows W i v)
    (hkeeps : v.Keeps L cs) :
    Yields (resize grow W i n) W i v ((cs ++ List.replicate (n - cs.length) 0).take n)
      (Short L fresh n) := by
  have hsize : L.getSize (W.obj i) = cs.length := h.size.trans hkeeps.size
  unfold resize
  simp only [hsize]
  by_cases hn : n > cs.length
  · rw [if_pos hn, bind_assoc]
    refine hgrow.bind fun W₁ v₁ hchanges hkeeps₁ hroom => ?_
    have hlength : cs.length + (List.replicate (n - cs.length) (0 : TChar w)).length = n := by
      rw [List.length_replicate]
      omega
    have hyields := hchanges.shows.write_yields (List.replicate (n - cs.length) 0) hL hkeeps₁
      (Nat.le_refl _) (by rwa [hlength]) (Short L fresh n)
    rw [hlength, List.take_length] at hyields
    rwa [List.take_of_length_le (Nat.le_of_eq ((List.length_append).trans hlength))]
  · have hle := Nat.le_of_not_lt hn
    have hlength : (cs.take n).length = n := by
      rw [List.length_take]
      omega
    have hlt := hkeeps.holds.length_lt
    have htake : v.cells.take (cs.take n).length = cs.take n := by
      rw [hlength]
      exact hkeeps.holds.take_of_le hle
    obtain ⟨W', v', hW', hchanges, hkeeps', -⟩ :=
      h.finish hL htake (by omega) hkeeps.length_le
    rw [hlength] at hW'
    refine .inr ⟨W', v', ?_, hchanges, ?_⟩
    · rw [if_neg hn]
      exact hW'
    · rw [Nat.sub_eq_zero_of_le hle, List.replicate_zero, List.append_nil]
      exact hkeeps'

theorem pushBack_yields (hL : L.Lawful)
    (hgrow : Grows (grow W (cs.length + 1)) W i v cs fresh (cs.length + 1)) (h : Shows W i v)
    (hkeeps : v.Keeps L cs) (hone : 1 ≤ L.sizeMax) :
    Yields (pushBack grow W i c) W i v (cs ++ [c]) (Short L fresh (cs.length + 1)) := by
  have hsize : L.getSize (W.obj i) = cs.length := h.size.trans hkeeps.size
  unfold pushBack
  simp only [hsize]
  refine .checkedLengthSum hL hone (hgrow.bind fun W₁ v₁ hchanges hkeeps₁ hroom => ?_)
  have hyields := hchanges.shows.write_yields [c] hL hkeeps₁ (Nat.le_refl _) hroom
    (Short L fresh (cs.length + 1))
  rwa [List.take_length] at hyields

end

theorem erase_yields (hL : L.Lawful) (h : Shows W i v) (hkeeps : v.Keeps L cs)
    (hk : k ≤ cs.length) (reason : Prop) :
    Yields (erase W i k n) W i v (cs.take k ++ cs.drop (k + n)) reason := by
  have hsize : L.getSize (W.obj i) = cs.length := h.size.trans hkeeps.size
  unfold erase
  simp only [hsize]
  rw [if_pos hk]
  have hcount : cs.drop (k + n) = cs.drop (k + min n (cs.length - k)) := by
    by_cases hle : n ≤ cs.length - k
    · rw [Nat.min_eq_left hle]
    · rw [Nat.min_eq_right (by omega), List.drop_eq_nil_of_le (by omega),
        List.drop_eq_nil_of_le (by omega)]
  rw [hcount]
  have hle : min n (cs.length - k) ≤ cs.length - k := Nat.min_le_right _ _
  generalize min n (cs.length - k) = m at hle
  by_cases hm : m = 0
  · rw [if_pos hm]
    refine .inr ⟨W, v, rfl, .refl h, ?_⟩
    rw [hm, Nat.add_zero, List.take_append_drop]
    exact hkeeps
  · have hlength : (cs.drop (k + m)).length = cs.length - k - m := by
      rw [List.length_drop]
      omega
    have hread := h.read_chars hkeeps (show k + m + (cs.length - k - m) ≤ cs.length by omega)
    rw [List.take_of_length_le (Nat.le_of_eq hlength)] at hread
    have hlt := hkeeps.holds.length_lt
    obtain ⟨W₁, W', v', hW₁, hW', hchanges, hkeeps'⟩ :=
      h.write_finish (cs.drop (k + m)) hL hkeeps hk (by omega)
    rw [hlength, show k + (cs.length - k - m) = cs.length - m by omega] at hW'
    refine .inr ⟨W', v', ?_, hchanges, hkeeps'⟩
    rw [if_neg hm]
    simp only [memMove, hread, Option.bind_some, hW₁, check, bind, Except.bind, hW']

theorem removeSuffix_yields (hL : L.Lawful) (h : Shows W i v) (hkeeps : v.Keeps L cs)
    (hn : n ≤ cs.length) (reason : Prop) :
    Yields (removeSuffix W i n) W i v (cs.take (cs.length - n)) reason := by
  have hsize : L.getSize (W.obj i) = cs.length := h.size.trans hkeeps.size
  have hlt := hkeeps.holds.length_lt
  have hlength : (cs.take (cs.length - n)).length = cs.length - n := by
    rw [List.length_take]
    omega
  have htake : v.cells.take (cs.take (cs.length - n)).length = cs.take (cs.length - n) := by
    rw [hlength]
    exact hkeeps.holds.take_of_le (Nat.sub_le _ _)
  obtain ⟨W', v', hW', hchanges, hkeeps', -⟩ := h.finish hL htake (by omega) hkeeps.length_le
  rw [hlength] at hW'
  unfold removeSuffix
  rw [hsize, if_pos hn]
  exact .inr ⟨W', v', hW', hchanges, hkeeps'⟩

/-- The characters behind the place of an insertion are moved, and the new ones are written
before them. -/
theorem insert_yields (grow : World ι L → ℕ → Except Halt (World ι L)) (hL : L.Lawful)
    (hgrow : Grows (grow W (cs.length + n)) W i v cs fresh (cs.length + n)) (h : Shows W i v)
    (hkeeps : v.Keeps L cs) (hk : k ≤ cs.length) (hn : n ≤ L.sizeMax) :
    Yields (insert grow W i k n c) W i v (cs.take k ++ List.replicate n c ++ cs.drop k)
      (Short L fresh (cs.length + n)) := by
  have hsize : L.getSize (W.obj i) = cs.length := h.size.trans hkeeps.size
  unfold insert
  simp only [hsize]
  rw [if_pos hk]
  by_cases hzero : n = 0
  · rw [if_pos hzero]
    refine .inr ⟨W, v, rfl, .refl h, ?_⟩
    rw [hzero, List.replicate_zero, List.append_nil, List.take_append_drop]
    exact hkeeps
  rw [if_neg hzero]
  refine .checkedLengthSum hL hn (hgrow.bind fun W₁ v₁ hchanges hkeeps₁ hroom => ?_)
  have hdrop : (cs.drop k).length = cs.length - k := List.length_drop
  have hrep : (List.replicate n c).length = n := List.length_replicate
  have hread := hchanges.shows.read_chars hkeeps₁ (show k + (cs.length - k) ≤ cs.length by omega)
  rw [List.take_of_length_le (Nat.le_of_eq hdrop)] at hread
  obtain ⟨cells₂, hwrite₂⟩ := ArrayWrite.exists_write
    (show k + n + (cs.drop k).length ≤ v₁.cells.length by omega)
  obtain ⟨W₂, hW₂, hchanges₂⟩ := hchanges.shows.write hL hwrite₂
  have hlength₂ := ArrayWrite.length_write hwrite₂
  obtain ⟨cells₃, hwrite₃⟩ := ArrayWrite.exists_write
    (show k + (List.replicate n c).length ≤ cells₂.length by omega)
  obtain ⟨W₃, hW₃, hchanges₃⟩ := hchanges₂.shows.write hL hwrite₃
  have hlength₃ := ArrayWrite.length_write hwrite₃
  -- the first cells are the old ones and the copies, the ones behind them what was moved
  have hfront := ArrayWrite.take_write hwrite₃
  rw [ArrayWrite.take_write_of_le hwrite₂ (by omega), hkeeps₁.holds.take_of_le hk, hrep] at hfront
  have hback : (cells₃.drop (k + n)).take (cs.length - k) = cs.drop k := by
    have htake := congrArg (List.drop (k + n)) (ArrayWrite.take_write hwrite₂)
    rw [List.drop_take, hdrop, Nat.add_sub_cancel_left, List.drop_left' (by
      rw [List.length_take]
      omega)] at htake
    rw [ArrayWrite.drop_write hwrite₃ (by omega), htake]
  have hds : (cs.take k ++ List.replicate n c ++ cs.drop k).length = cs.length + n := by
    rw [List.length_append, List.length_append, List.length_take, hdrop, hrep]
    omega
  have htake : cells₃.take (cs.take k ++ List.replicate n c ++ cs.drop k).length =
      cs.take k ++ List.replicate n c ++ cs.drop k := by
    rw [hds, show cs.length + n = k + n + (cs.length - k) by omega, List.take_add, hfront, hback]
  have hmax := hkeeps₁.length_le
  obtain ⟨W', v', hW', hchanges', hkeeps', -⟩ := hchanges₃.shows.finish hL htake
    (by rw [hds]; exact (by omega : cs.length + n < cells₃.length))
    (by exact (by omega : cells₃.length ≤ L.maxCapacity + 1))
  rw [hds] at hW'
  refine .inr ⟨W', v', ?_, (hchanges₂.trans hchanges₃).trans hchanges', hkeeps'⟩
  have hdata : ∀ k, (getData W₂ i).add k = (getData W₁ i).add k := fun k => by
    rw [hchanges₂.shows.getData, hchanges.shows.getData]
  rw [hdata] at hW₃
  simp only [bind, Except.bind, memMove, hread, Option.bind_some, hW₂, check, hdata, hW₃, hW']

end Equilibrium.StringStorage
