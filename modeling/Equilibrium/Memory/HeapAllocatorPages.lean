import Equilibrium.Memory.HeapAllocatorRuns

/-! Where the pages are that the allocator of large blocks took: in a block or in the rest of
the arena, as long as no arena is replaced that has a rest. -/

namespace Equilibrium.HeapAllocator

open Library.DoublyLinked

variable {P : Type} {src : PageSource P} {p : P}

/-- The page at `a` is part of a block or of the rest of the arena. -/
def Kept (s : State P) (bs : List ℕ) (a : ℕ) : Prop :=
  (∃ b ∈ bs, b ≤ a ∧ a + kPageSize ≤ b + (s.headers b).totalSize) ∨
    ∃ j, a = s.arenaCursor + kPageSize * j ∧ a + kPageSize ≤ s.arenaEnd

def AllKept (src : PageSource P) (p : P) (s : State P) (bs : List ℕ) : Prop :=
  ∀ a, src.handed s.pages a → src.handed p a ∨ Kept s bs a

def Drained (src : PageSource P) (s : Run P) (size : ℕ) : Prop :=
  findBestFit s.heap.headers (allocBytes size) s.freed.length s.heap.freeList = some none →
    s.heap.arenaEnd < s.heap.arenaCursor + allocBytes size →
    (growArena src s.heap).isSome → s.heap.arenaCursor = s.heap.arenaEnd

def OkKept (src : PageSource P) (s : Run P) : Act → Prop
  | .allocate size => size = 0 ∨ (NoWrap src s size ∧ Drained src s size)
  | .reAllocate b newSize => newSize = 0 ∨
      (newSize + kHeaderSize + kPageSize - 1 < kWordRange ∧
        (pagesRequired newSize ≤ (s.heap.headers (headerOf b)).pageCount ∨
          (NoWrap src s newSize ∧ Drained src s newSize)))
  | .free _ => True
  | .write _ _ => True

instance (src : PageSource P) (s : Run P) (size : ℕ) : Decidable (Drained src s size) :=
  inferInstanceAs (Decidable (_ → _))

instance (src : PageSource P) (s : Run P) (a : Act) : Decidable (OkKept src s a) :=
  match a with
  | .allocate _ => inferInstanceAs (Decidable (_ ∨ _))
  | .reAllocate _ _ => inferInstanceAs (Decidable (_ ∨ _))
  | .free _ => inferInstanceAs (Decidable True)
  | .write _ _ => inferInstanceAs (Decidable True)

theorem OkKept.ok {s : Run P} {a : Act} (h : OkKept src s a) : Ok src s a := by
  cases a with
  | allocate size => exact h.imp id And.left
  | reAllocate b newSize => exact h.imp id fun h => ⟨h.1, h.2.imp id And.left⟩
  | free b => trivial
  | write a v => trivial

section State

variable {s s' : State P} {bs bs' : List ℕ}

section

variable (h : AllKept src p s bs)
include h

theorem AllKept.congr (hperm : bs'.Perm bs)
    (hsize : ∀ b ∈ bs, (s'.headers b).totalSize = (s.headers b).totalSize)
    (hpages : s'.pages = s.pages) (hcursor : s'.arenaCursor = s.arenaCursor)
    (hend : s'.arenaEnd = s.arenaEnd) : AllKept src p s' bs' := by
  intro a ha
  rw [hpages] at ha
  rcases h a ha with hold | ⟨b, hb, hle, hlt⟩ | ⟨j, hj, hle⟩
  · exact .inl hold
  · refine .inr (.inl ⟨b, hperm.mem_iff.mpr hb, hle, ?_⟩)
    rw [hsize b hb]
    exact hlt
  · refine .inr (.inr ⟨j, ?_, ?_⟩)
    · rw [hcursor]
      exact hj
    · rw [hend]
      exact hle

section

variable {size : ℕ} (hsize : size + kHeaderSize + kPageSize - 1 < kWordRange)
include hsize

theorem AllKept.bumped (hsum : s.arenaCursor + allocBytes size < kWordRange)
    (hnew : s.arenaCursor ∉ bs) : AllKept src p (bump size s).2 (s.arenaCursor :: bs) := by
  obtain ⟨-, -, hbytes, -⟩ := pagesRequired_spec hsize
  have hcursor : (bump size s).2.arenaCursor = s.arenaCursor + allocBytes size :=
    Nat.mod_eq_of_lt hsum
  have hself : (bump size s).2.headers s.arenaCursor = newBlock size (allocBytes size) :=
    Function.update_self _ _ _
  intro a ha
  rcases h a ha with hold | ⟨b, hb, hle, hlt⟩ | ⟨j, hj, hle⟩
  · exact .inl hold
  · refine .inr (.inl ⟨b, List.mem_cons_of_mem _ hb, hle, ?_⟩)
    have hkeep : (bump size s).2.headers b = s.headers b :=
      Function.update_of_ne (ne_of_mem_of_not_mem hb hnew) _ _
    rw [hkeep]
    exact hlt
  · by_cases hlt : j < pagesRequired size
    · refine .inr (.inl ⟨s.arenaCursor, List.mem_cons_self, by omega, ?_⟩)
      have hmul : kPageSize * (j + 1) ≤ kPageSize * pagesRequired size := Nat.mul_le_mul_left _ hlt
      rw [hself]
      simp only [newBlock, hbytes]
      rw [Nat.mul_add] at hmul
      omega
    · refine .inr (.inr ⟨j - pagesRequired size, ?_, hle⟩)
      rw [hcursor, hbytes, hj, Nat.add_assoc, ← Nat.mul_add, Nat.add_sub_cancel' (by omega)]

theorem AllKept.direct {memory : Pages} {pages : P}
    (hrequest : src.requestPages (pagesRequired size) s.pages = some (memory, pages))
    (hnew : memory.address ∉ bs) : AllKept src p { s with
      headers := Function.update s.headers memory.address (newBlock size memory.size)
      pages := pages } (memory.address :: bs) := by
  obtain ⟨-, -, -, hlt⟩ := pagesRequired_spec hsize
  have hgrant := src.pages_grant _ _ _ _
    (Nat.lt_of_le_of_lt (Nat.le_mul_of_pos_left _ (by decide)) hlt) hrequest
  intro a ha
  rcases (hgrant.handed a).mp ha with hold | ⟨j, hj, rfl⟩
  · rcases h a hold with hp | ⟨b, hb, hle, hlt⟩ | ⟨j, hj, hle⟩
    · exact .inl hp
    · refine .inr (.inl ⟨b, List.mem_cons_of_mem _ hb, hle, ?_⟩)
      simp only [Function.update_of_ne (ne_of_mem_of_not_mem hb hnew)]
      exact hlt
    · exact .inr (.inr ⟨j, hj, hle⟩)
  · refine .inr (.inl ⟨memory.address, List.mem_cons_self, by omega, ?_⟩)
    have hmul : kPageSize * (j + 1) ≤ kPageSize * pagesRequired size := Nat.mul_le_mul_left _ hj
    simp only [Function.update_self, newBlock, hgrant.size]
    rw [Nat.mul_add] at hmul
    omega

end

theorem AllKept.grown (hgrow : growArena src s = some s') (hdrained : s.arenaCursor = s.arenaEnd) :
    AllKept src p s' bs := by
  obtain ⟨⟨chunk, pages⟩, hrequest, rfl⟩ := Option.map_eq_some_iff.mp hgrow
  have hgrant := src.pages_grant _ _ _ _ (by decide) hrequest
  intro a ha
  rcases (hgrant.handed a).mp ha with hold | ⟨j, hj, rfl⟩
  · rcases h a hold with hp | hblock | ⟨j, hj, hle⟩
    · exact .inl hp
    · exact .inr (.inl hblock)
    · have hpos : 0 < kPageSize := by decide
      omega
  · refine .inr (.inr ⟨j, rfl, ?_⟩)
    have hmul : kPageSize * (j + 1) ≤ kPageSize * kArenaChunkPages := Nat.mul_le_mul_left _ hj
    rw [Nat.mul_add] at hmul
    simp only [hgrant.size, Nat.mod_eq_of_lt hgrant.fits]
    omega

end

end State

section Runs

variable {s s' : Run P} {free : List ℕ} {size : ℕ} {r : Option ℕ} {heap : State P}

/-- The blocks of the users and the freed blocks keep every page. -/
def RunKept (src : PageSource P) (p : P) (s : Run P) : Prop :=
  AllKept src p s.heap (s.live.map headerOf ++ s.freed)

theorem RunInv.perm (h : RunInv src s free) :
    (blocks s.live free).Perm (s.live.map headerOf ++ s.freed) := h.freed.append_left _

theorem AllKept.perm {s : State P} {bs bs' : List ℕ} (h : AllKept src p s bs)
    (hperm : bs'.Perm bs) : AllKept src p s bs' :=
  h.congr hperm (fun _ _ => rfl) rfl rfl rfl

theorem kept_bump {heap : State P} {live : List Block}
    (h : Inv src heap live free) (hk : AllKept src p heap (blocks live free))
    (hsize : size + kHeaderSize + kPageSize - 1 < kWordRange)
    (hsum : heap.arenaCursor + allocBytes size < kWordRange)
    (hfits : fitsArena size heap = true) :
    AllKept src p (bump size heap).2 (heap.arenaCursor :: blocks live free) :=
  hk.bumped hsize hsum (h.bumped hsize hsum hfits).new_notMem

theorem kept_direct {heap heap' : State P} {live : List Block}
    (h : Inv src heap live free) (hk : AllKept src p heap (blocks live free))
    (hsize : size + kHeaderSize + kPageSize - 1 < kWordRange)
    (hdirect : allocateDirect src size heap = (r, heap')) :
    AllKept src p heap' ((r.map fromUserData).toList ++ blocks live free) := by
  have hinv := h.direct hsize hdirect
  rw [allocateDirect] at hdirect
  cases hrequest : src.requestPages (pagesRequired size) heap.pages with
  | none =>
    rw [hrequest] at hdirect
    cases hdirect
    exact hk
  | some q =>
    obtain ⟨memory, pages⟩ := q
    rw [hrequest] at hdirect
    cases hdirect
    exact hk.direct hsize hrequest hinv.new_notMem

section

variable (h : RunInv src s free)
include h

theorem RunInv.kept_arena (hk : AllKept src p s.heap (blocks s.live free)) (hok : NoWrap src s size)
    (hdrained : Drained src s size)
    (hnone : findBestFit s.heap.headers (allocBytes size) s.freed.length s.heap.freeList =
      some none) (ha : HeapAllocator.allocateArena src size s.heap = (r, heap)) :
    AllKept src p heap ((r.map fromUserData).toList ++ blocks s.live free) := by
  have hsum := hok.sum hnone
  rw [HeapAllocator.allocateArena] at ha
  split at ha
  case isTrue hfits =>
    cases ha
    exact kept_bump h.inv hk hok.pages hsum hfits
  case isFalse hfits =>
    rw [fitsArena, Nat.mod_eq_of_lt hsum, decide_eq_true_eq] at hfits
    split at ha
    case h_1 => exact kept_direct h.inv hk hok.pages ha
    case h_2 heap' hgrow =>
      have hinv := h.inv.grown hgrow
      have hsum' := hok.grown hnone (Nat.lt_of_not_le hfits) heap' hgrow
      have hk' := hk.grown hgrow
        (hdrained hnone (Nat.lt_of_not_le hfits) (by rw [hgrow]; rfl))
      split at ha
      case isTrue hfits' =>
        cases ha
        exact kept_bump hinv hk' hok.pages hsum' hfits'
      case isFalse => exact kept_direct hinv hk' hok.pages ha

section

variable (hk : RunKept src p s)
include hk

theorem RunInv.kept_allocate (hok : size = 0 ∨ (NoWrap src s size ∧ Drained src s size))
    (hcall : HeapAllocator.allocate src s.freed.length size s.heap = some (r, heap)) :
    RunKept src p (s.take size r heap) := by
  have hkept : AllKept src p s.heap (blocks s.live free) := AllKept.perm hk h.perm
  by_cases hzero : size = 0
  · rw [HeapAllocator.allocate, if_pos hzero] at hcall
    cases hcall
    simpa [RunKept, Run.take] using hk
  · obtain ⟨hwrap, hdrained⟩ := hok.resolve_left hzero
    rw [HeapAllocator.allocate, if_neg hzero] at hcall
    obtain ⟨best, hfind, hbest⟩ := h.bestFit (allocBytes size)
    rw [hfind] at hcall
    cases best with
    | some x =>
      cases hcall
      obtain ⟨-, ⟨l, m, hfree⟩, -⟩ := hbest x rfl
      have hlist : FreeList s.heap.headers s.heap.freeList (l ++ x :: m) := hfree ▸ h.inv.freeList
      have hsame := (freeListRemove_spec hlist).2.1
      have hx : x ∈ s.freed := h.freed.mem_iff.mp (by simp [hfree])
      refine AllKept.congr hk ?_ (fun c _ => (Inv.reuse_size hlist size c).1) hsame.pages
        hsame.arenaCursor hsame.arenaEnd
      simp only [Run.take, Option.map_some, Option.toList_some, Option.getD_some, List.map_append,
        List.map_singleton, headerOf]
      rw [show fromUserData (userData x) = x from Nat.add_sub_cancel _ _, List.append_assoc,
        List.singleton_append]
      exact (List.perm_cons_erase hx).symm.append_left _
    | none =>
      have harena := h.kept_arena hkept hwrap hdrained hfind (Option.some.inj hcall)
      have hinv := h.allocateArena hwrap hfind (Option.some.inj hcall)
      refine AllKept.perm harena ?_
      cases r with
      | none => exact (List.append_nil s.live).symm ▸ h.perm.symm
      | some a =>
        have hnew : fromUserData a ∉ s.freed := fun hmem =>
          hinv.new_notMem (Inv.free_mem (h.freed.mem_iff.mpr hmem))
        simp only [Run.take, Option.map_some, Option.toList_some, Option.getD_some,
          List.map_append, List.map_singleton, headerOf]
        rw [List.erase_of_not_mem hnew, List.append_assoc, List.singleton_append]
        exact List.perm_middle.trans (h.perm.symm.cons _)

theorem RunInv.kept_release {b : Block} (hb : b ∈ s.live) {turns n : ℕ}
    (hturns : s.freed.length ≤ turns)
    (hcall : HeapAllocator.free turns (some b.address) s.heap = some (n, heap)) :
    RunKept src p (s.drop b heap) := by
  obtain ⟨heap', hinsert, hlist, hsame, -, -, htotal, hother⟩ :=
    freeListInsert_spec h.inv.freeList (h.inv.header_notMem hb) (h.freed.length_eq ▸ hturns)
  have heap_eq : heap = heap' := by
    change (freeListInsert turns (headerOf b) s.heap).map _ = _ at hcall
    rw [hinsert] at hcall
    exact (Prod.mk.inj (Option.some.inj hcall)).2.symm
  subst heap_eq
  refine AllKept.congr hk ?_ (fun c _ => ?_) hsame.pages hsame.arenaCursor hsame.arenaEnd
  · refine List.perm_middle.trans ?_
    exact (((List.perm_cons_erase hb).map headerOf).symm).append_right _
  · by_cases hc : c = headerOf b
    · rw [hc]
      exact htotal
    · exact (hother c hc).totalSize

theorem RunInv.kept_reAllocate {b : Block} (hb : b ∈ s.live) {newSize : ℕ}
    (hok : OkKept src s (.reAllocate b newSize))
    (hcall : HeapAllocator.reAllocate src s.freed.length (some b.address) newSize s.heap =
      some (r, heap)) : RunKept src p (s.resize b newSize r heap) := by
  by_cases hzero : newSize = 0
  · rw [HeapAllocator.reAllocate, if_pos hzero] at hcall
    obtain ⟨⟨n, heap'⟩, hfree, heq⟩ := Option.map_eq_some_iff.mp hcall
    cases heq
    rw [Run.resize, if_pos hzero]
    exact h.kept_release hk hb le_rfl hfree
  · obtain ⟨hsize, hcase⟩ := hok.resolve_left hzero
    rw [HeapAllocator.reAllocate, if_neg hzero] at hcall
    simp only at hcall
    by_cases hle : pagesRequired newSize ≤ (s.heap.headers (headerOf b)).pageCount
    · have hplace := (if_pos hle).symm.trans hcall
      cases hplace
      rw [Run.resize, if_pos rfl]
      refine AllKept.congr hk (List.Perm.append_right _ ?_)
        (fun c _ => (setUserSize_size _ _ c _).1) rfl rfl rfl
      rw [List.map_append, List.map_singleton]
      exact (List.perm_append_singleton _ _).trans ((List.perm_cons_erase hb).map headerOf).symm
    · have hmove := (if_neg hle).symm.trans hcall
      obtain ⟨⟨r', heap'⟩, halloc, hmove⟩ := Option.bind_eq_some_iff.mp hmove
      obtain ⟨hwrap, hdrained⟩ := hcase.resolve_left hle
      have hkept := h.kept_allocate hk (.inr ⟨hwrap, hdrained⟩) halloc
      obtain ⟨r'', heap'', halloc', ⟨free', hinv⟩, -⟩ := h.allocate (.inr hwrap)
      cases halloc.symm.trans halloc'
      cases r' with
      | none =>
        cases hmove
        rw [Run.resize, if_neg hzero]
        simpa [RunKept, Run.take] using hkept
      | some a =>
        have hne := (RunInv.moved hb hinv 0).1
        obtain ⟨⟨n, t⟩, hfree, heq⟩ := Option.map_eq_some_iff.mp hmove
        cases heq
        simp only [Run.resize]
        rw [if_neg hne]
        obtain ⟨m, hm⟩ : ∃ m, m = Library.ByteMemory.copy heap'.memory a b.address
          (min (s.heap.headers (fromUserData b.address)).userSize newSize) := ⟨_, rfl⟩
        rw [← hm] at hfree
        have hcopied : RunInv src ({ s.take newSize (some a) heap' with
            heap := { heap' with memory := m } }) free' := ⟨hinv.inv.setMemory m, hinv.freed⟩
        exact hcopied.kept_release hkept (by simp [Run.take, hb]) List.length_erase_le hfree

theorem RunInv.kept_step {a : Act} (hok : OkKept src s a)
    (hs : HeapAllocator.step src s a = some s') : RunKept src p s' := by
  cases a with
  | allocate size =>
    obtain ⟨⟨r, heap⟩, hcall, rfl⟩ := Option.map_eq_some_iff.mp hs
    exact h.kept_allocate hk hok hcall
  | reAllocate b newSize =>
    obtain ⟨hb, hs⟩ := Option.ite_none_right_eq_some.mp hs
    obtain ⟨⟨r, heap⟩, hcall, rfl⟩ := Option.map_eq_some_iff.mp hs
    exact h.kept_reAllocate hk hb hok hcall
  | free b =>
    obtain ⟨hb, hs⟩ := Option.ite_none_right_eq_some.mp hs
    obtain ⟨⟨n, heap⟩, hcall, rfl⟩ := Option.map_eq_some_iff.mp hs
    exact h.kept_release hk hb le_rfl hcall
  | write a v =>
    obtain ⟨-, hs⟩ := Option.ite_none_right_eq_some.mp hs
    cases hs
    exact hk

end

end

end Runs

/-- In a run that takes a new arena only when the old one has no rest, every page that was
taken lies in a live block, in a block of the free list or in the rest of the arena. -/
theorem pages_kept {m : Library.ByteMemory.Bytes}
    (e : Library.Interleaving.Execution (machine src m p))
    (hok : ∀ i a, e.act i = some a → OkKept src (e.state i) a) (i : ℕ) :
    ∃ free, FreeList (e.state i).heap.headers (e.state i).heap.freeList free ∧
      ∀ a, src.handed (e.state i).heap.pages a →
        src.handed p a ∨ Kept (e.state i).heap (blocks (e.state i).live free) a := by
  have hinit : (∃ free, RunInv src (machine src m p).init free) ∧
      RunKept src p (machine src m p).init :=
    ⟨⟨[], runInv_start src m p⟩, fun a ha => .inl ha⟩
  have hstep : ∀ s a s', ((∃ free, RunInv src s free) ∧ RunKept src p s) → OkKept src s a →
      (machine src m p).step s a = some s' → (∃ free, RunInv src s' free) ∧ RunKept src p s' := by
    intro s a s' hs hok hstep
    obtain ⟨⟨free, h⟩, hk⟩ := hs
    exact ⟨h.step hok.ok hstep, h.kept_step hk hok hstep⟩
  obtain ⟨⟨free, h⟩, hk⟩ := e.invariant hinit hstep hok i
  exact ⟨free, h.inv.freeList, AllKept.perm hk h.perm⟩

/-- The second arena comes after the first is used up. -/
theorem pages_kept_small :
    ∃ e : Library.Interleaving.Execution (machine smallSource (fun _ => 0) 0),
      (e.state 3).heap.arenaBase = 2 ^ 20 + 256 * 65536 ∧
      ∃ free, FreeList (e.state 3).heap.headers (e.state 3).heap.freeList free ∧
        ∀ a, smallSource.handed (e.state 3).heap.pages a →
          smallSource.handed 0 a ∨ Kept (e.state 3).heap (blocks (e.state 3).live free) a := by
  have hrun : ((machine smallSource (fun _ => 0) 0).run (machine smallSource (fun _ => 0) 0).init
      [.allocate (200 * 65536 - 48), .allocate (56 * 65536 - 48), .allocate 1]).isSome := by
    decide +kernel
  have hbase : (Library.Interleaving.stateAt (machine smallSource (fun _ => 0) 0)
      (machine smallSource (fun _ => 0) 0).init
      [.allocate (200 * 65536 - 48), .allocate (56 * 65536 - 48), .allocate 1] 3).heap.arenaBase =
      2 ^ 20 + 256 * 65536 := by
    decide +kernel
  exact ⟨.ofRun _ hrun, hbase,
    pages_kept _ (Library.Interleaving.Execution.ofRun_guarded (by decide +kernel)) 3⟩

/-- A second arena drops the 56 pages that the first one has left. -/
theorem arena_rest_dropped : ∃ s : Run ℕ, (machine smallSource (fun _ => 0) 0).Reachable s ∧
    s.heap.freeList = none ∧ smallSource.handed s.heap.pages (2 ^ 20 + 200 * 65536) ∧
    s.heap.arenaBase = 2 ^ 20 + 256 * 65536 ∧ s.heap.arenaBase ≤ s.heap.arenaCursor ∧
    ∀ b ∈ s.live, headerOf b + (s.heap.headers (headerOf b)).totalSize ≤ 2 ^ 20 + 200 * 65536 ∨
      2 ^ 20 + 256 * 65536 ≤ headerOf b := by
  have hrun : ((machine smallSource (fun _ => 0) 0).run (machine smallSource (fun _ => 0) 0).init
      [.allocate (200 * 65536 - 48), .allocate (100 * 65536 - 48)]).any (fun s =>
      s.heap.freeList = none ∧ smallSource.handed s.heap.pages (2 ^ 20 + 200 * 65536) ∧
      s.heap.arenaBase = 2 ^ 20 + 256 * 65536 ∧ s.heap.arenaBase ≤ s.heap.arenaCursor ∧
      ∀ b ∈ s.live, headerOf b + (s.heap.headers (headerOf b)).totalSize ≤ 2 ^ 20 + 200 * 65536 ∨
        2 ^ 20 + 256 * 65536 ≤ headerOf b) = true := by
    decide +kernel
  obtain ⟨s, hs, hfacts⟩ := (Option.any_eq_true _ _).mp hrun
  exact ⟨s, Library.Interleaving.Machine.Reachable.init.run hs, by simpa using hfacts⟩

end Equilibrium.HeapAllocator
