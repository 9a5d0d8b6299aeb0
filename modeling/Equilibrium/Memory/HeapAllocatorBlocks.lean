import Equilibrium.Memory.HeapAllocator

/-! The blocks of the allocator of large blocks under any sequence of calls whose sums do not
wrap: where the live blocks, the free blocks and the rest of the arena lie. -/

namespace Equilibrium.HeapAllocator

open Library.ByteMemory Library.DoublyLinked Function List Nat

variable {P : Type} {src : PageSource P} {s s' : State P}

/-- `n` pages from `a` on that were handed out. -/
structure Region (src : PageSource P) (p : P) (a n : ℕ) : Prop where
  pos : 0 < a
  aligned : kPageSize ∣ a
  fits : a + kPageSize * n < kWordRange
  handed : ∀ j < n, src.handed p (a + kPageSize * j)

theorem Region.of_grant {p p' : P} {r : Pages} {n : ℕ}
    (h : PageGrant (src.handed p) (src.handed p') n r) : Region src p' r.address n :=
  ⟨h.pos, h.aligned, h.fits, fun j hj => (h.handed _).mpr (.inr ⟨j, hj, rfl⟩)⟩

theorem Region.mono {p p' : P} {a n : ℕ} (h : Region src p a n)
    (hle : ∀ a, src.handed p a → src.handed p' a) : Region src p' a n :=
  ⟨h.pos, h.aligned, h.fits, fun j hj => hle _ (h.handed j hj)⟩

theorem Region.part {p : P} {a n : ℕ} (h : Region src p a n) {i m : ℕ} (him : i + m ≤ n) :
    Region src p (a + kPageSize * i) m := by
  have hmul : kPageSize * (i + m) ≤ kPageSize * n := Nat.mul_le_mul_left _ him
  have hfits := h.fits
  rw [Nat.mul_add] at hmul
  refine ⟨Nat.add_pos_left h.pos _, Nat.dvd_add h.aligned (Nat.dvd_mul_right _ _), by omega,
    fun j hj => ?_⟩
  have hpage := h.handed (i + j) (by omega)
  rwa [Nat.mul_add, ← Nat.add_assoc] at hpage

theorem Region.apart {p : P} {a b m n : ℕ} (h : Region src p a m) (hm : 0 < m) (hn : 0 < n)
    (hb : kPageSize ∣ b) (hfresh : ∀ j < n, ¬ src.handed p (b + kPageSize * j)) :
    a + kPageSize * m ≤ b ∨ b + kPageSize * n ≤ a := by
  obtain ⟨x, hx⟩ := h.aligned
  obtain ⟨y, hy⟩ := hb
  by_contra hover
  rw [not_or, hx, hy, ← Nat.mul_add, ← Nat.mul_add] at hover
  have hxy : y < x + m := Nat.lt_of_mul_lt_mul_left (Nat.lt_of_not_le hover.1)
  have hyx : x < y + n := Nat.lt_of_mul_lt_mul_left (Nat.lt_of_not_le hover.2)
  rcases Nat.le_total x y with hle | hle
  · have hpage := h.handed (y - x) (by omega)
    rw [hx, ← Nat.mul_add, Nat.add_sub_cancel' hle] at hpage
    have hnot := hfresh 0 hn
    rw [hy, ← Nat.mul_add, Nat.add_zero] at hnot
    exact hnot hpage
  · have hpage := h.handed 0 hm
    rw [hx, ← Nat.mul_add, Nat.add_zero] at hpage
    have hnot := hfresh (x - y) (by omega)
    rw [hy, ← Nat.mul_add, Nat.add_sub_cancel' hle] at hnot
    exact hnot hpage

def headerOf (b : Block) : ℕ := fromUserData b.address

def blocks (live : List Block) (free : List ℕ) : List ℕ := live.map headerOf ++ free

def InPages (src : PageSource P) (s : State P) (b : ℕ) : Prop :=
  ∃ n, 0 < n ∧ (s.headers b).totalSize = kPageSize * n ∧ (s.headers b).pageCount ≤ n ∧
    Region src s.pages b n

def Apart (s : State P) (b c : ℕ) : Prop :=
  b + (s.headers b).totalSize ≤ c ∨ c + (s.headers c).totalSize ≤ b

theorem Apart.symm {b c : ℕ} (h : Apart s b c) : Apart s c b := Or.symm h

def OffArena (s : State P) (b : ℕ) : Prop :=
  b + (s.headers b).totalSize ≤ s.arenaCursor ∨ s.arenaEnd ≤ b

/-- The arena is not there yet, or `k` of its `n` pages are used. -/
def ArenaOk (src : PageSource P) (s : State P) : Prop :=
  (s.arenaBase = 0 ∧ s.arenaCursor = 0 ∧ s.arenaEnd = 0) ∨
    ∃ k n, k ≤ n ∧ 0 < n ∧ s.arenaCursor = s.arenaBase + kPageSize * k ∧
      s.arenaEnd = s.arenaBase + kPageSize * n ∧ Region src s.pages s.arenaBase n

/-- The header of a live block. -/
structure UserOk (s : State P) (b : Block) : Prop where
  address : b.address = userData (headerOf b)
  userSize : (s.headers (headerOf b)).userSize = b.size
  fits : kHeaderSize + b.size ≤ (s.headers (headerOf b)).totalSize
  flags : (s.headers (headerOf b)).flags = .inUse

structure Inv (src : PageSource P) (s : State P) (live : List Block) (free : List ℕ) : Prop where
  inPages : ∀ b ∈ blocks live free, InPages src s b
  apart : (blocks live free).Pairwise (Apart s)
  offArena : ∀ b ∈ blocks live free, OffArena s b
  arena : ArenaOk src s
  user : ∀ b ∈ live, UserOk s b
  freeList : FreeList s.headers s.freeList free
  sorted : free.Pairwise fun b c => (s.headers b).totalSize ≤ (s.headers c).totalSize
  flags : ∀ b ∈ free, (s.headers b).flags = .free

namespace Inv

variable {live live' : List Block} {free free' : List ℕ}

theorem nodup (h : Inv src s live free) : (blocks live free).Nodup := by
  refine h.apart.imp_of_mem fun {b c} hb _ hapart heq => ?_
  obtain ⟨n, hn, htotal, -⟩ := h.inPages b hb
  have hpos : 0 < kPageSize * n := Nat.mul_pos (by decide) hn
  subst heq
  unfold Apart at hapart
  omega

theorem place (h : Inv src s live free) (hperm : (blocks live' free').Perm (blocks live free))
    (hsize : ∀ b ∈ blocks live free, (s'.headers b).totalSize = (s.headers b).totalSize ∧
      (s'.headers b).pageCount = (s.headers b).pageCount)
    (hpages : s'.pages = s.pages) (hcursor : s'.arenaCursor = s.arenaCursor)
    (hend : s'.arenaEnd = s.arenaEnd) :
    (∀ b ∈ blocks live' free', InPages src s' b) ∧ (blocks live' free').Pairwise (Apart s') ∧
      ∀ b ∈ blocks live' free', OffArena s' b := by
  refine ⟨fun b hb => ?_, ?_, fun b hb => ?_⟩
  · obtain ⟨htotal, hcount⟩ := hsize b (hperm.mem_iff.mp hb)
    obtain ⟨n, hn, hn', hle, hregion⟩ := h.inPages b (hperm.mem_iff.mp hb)
    refine ⟨n, hn, htotal.trans hn', by rw [hcount]; exact hle, ?_⟩
    rw [hpages]
    exact hregion
  · have hapart : (blocks live free).Pairwise (Apart s') := by
      refine h.apart.imp_of_mem fun {b c} hb hc hapart => ?_
      unfold Apart
      rw [(hsize b hb).1, (hsize c hc).1]
      exact hapart
    exact (hperm.pairwise_iff Apart.symm).mpr hapart
  · have hoff := h.offArena b (hperm.mem_iff.mp hb)
    unfold OffArena at *
    rw [(hsize b (hperm.mem_iff.mp hb)).1, hcursor, hend]
    exact hoff

theorem arena_congr (h : ArenaOk src s) (hsame : SameButList s s') : ArenaOk src s' := by
  unfold ArenaOk at *
  rw [hsame.pages, hsame.arenaBase, hsame.arenaCursor, hsame.arenaEnd]
  exact h

theorem header_inj (h : Inv src s live free) {b c : Block} (hb : b ∈ live) (hc : c ∈ live)
    (heq : headerOf b = headerOf c) : b = c :=
  inj_on_of_nodup_map (nodup_append.mp h.nodup).1 hb hc heq

theorem nodup_live (h : Inv src s live free) : live.Nodup :=
  (nodup_append.mp h.nodup).1.of_map _

theorem new_notMem {a size : ℕ} (h : Inv src s (live ++ [⟨a, size⟩]) free) :
    fromUserData a ∉ blocks live free := by
  have hnodup := h.nodup
  unfold blocks at *
  rw [map_append, map_singleton, append_assoc, singleton_append,
    perm_middle.nodup_iff] at hnodup
  exact (nodup_cons.mp hnodup).1

theorem header_mem {b : Block} (hb : b ∈ live) : headerOf b ∈ blocks live free :=
  mem_append_left _ (mem_map_of_mem hb)

theorem free_mem {b : ℕ} (hb : b ∈ free) : b ∈ blocks live free := mem_append_right _ hb

theorem header_notMem (h : Inv src s live free) {b : Block} (hb : b ∈ live) :
    headerOf b ∉ free := fun hmem =>
  (nodup_append.mp h.nodup).2.2 _ (mem_map_of_mem hb) _ hmem rfl

theorem freed (h : Inv src s live free) {b : Block} (hb : b ∈ live) {turns : ℕ}
    (hturns : free.length ≤ turns) : ∃ s', freeListInsert turns (headerOf b) s = some s' ∧
      Inv src s' (live.erase b) (insertSorted s.headers (headerOf b) free) := by
  obtain ⟨s', hinsert, hlist, hsame, hflags, hcount, htotal, hother⟩ :=
    freeListInsert_spec h.freeList (h.header_notMem hb) hturns
  have hmem : ∀ c, c ∈ insertSorted s.headers (headerOf b) free ↔ c = headerOf b ∨ c ∈ free :=
    fun c => (perm_insertSorted _ _ _).mem_iff.trans mem_cons
  have hsize : ∀ c, (s'.headers c).totalSize = (s.headers c).totalSize ∧
      (s'.headers c).pageCount = (s.headers c).pageCount := by
    intro c
    by_cases hc : c = headerOf b
    · rw [hc]
      exact ⟨htotal, hcount⟩
    · exact ⟨(hother c hc).totalSize, (hother c hc).pageCount⟩
  have hperm : (blocks (live.erase b) (insertSorted s.headers (headerOf b) free)).Perm
      (blocks live free) := by
    have hlive := (perm_cons_erase hb).map headerOf
    refine ((perm_insertSorted _ _ _).append_left _).trans (perm_middle.trans ?_)
    exact (hlive.append_right free).symm
  obtain ⟨hpages, hapart, hoff⟩ := h.place hperm (fun c _ => hsize c) hsame.pages
    hsame.arenaCursor hsame.arenaEnd
  refine ⟨s', hinsert, hpages, hapart, hoff, arena_congr h.arena hsame, fun c hc => ?_, hlist, ?_,
    fun c hc => ?_⟩
  · obtain ⟨hne, hc⟩ := h.nodup_live.mem_erase_iff.mp hc
    obtain ⟨haddress, huser, hfits, hinUse⟩ := h.user c hc
    have hkeep := hother (headerOf c) fun heq => hne (h.header_inj hc hb heq)
    refine ⟨haddress, hkeep.userSize.trans huser, ?_, hkeep.flags.trans hinUse⟩
    rw [hkeep.totalSize]
    exact hfits
  · refine (sorted_insertSorted h.sorted (headerOf b)).imp fun {c d} hle => ?_
    rw [(hsize c).1, (hsize d).1]
    exact hle
  · rcases (hmem c).mp hc with rfl | hfree
    · exact hflags
    · have hne : c ≠ headerOf b := ne_of_mem_of_not_mem hfree (h.header_notMem hb)
      rw [(hother c hne).flags]
      exact h.flags c hfree

theorem reuse_size {l m : List ℕ} {x : ℕ} (hl : FreeList s.headers s.freeList (l ++ x :: m))
    (size c : ℕ) : ((reuse x size s).2.headers c).totalSize = (s.headers c).totalSize ∧
      ((reuse x size s).2.headers c).pageCount = (s.headers c).pageCount := by
  obtain ⟨-, -, hblock⟩ := freeListRemove_spec hl
  by_cases hc : c = x
  · have hself : (reuse x size s).2.headers x =
        { (freeListRemove x s).headers x with flags := .inUse, userSize := size } :=
      update_self _ _ _
    rw [hc, hself]
    exact ⟨(hblock x).totalSize, (hblock x).pageCount⟩
  · have hother : (reuse x size s).2.headers c = (freeListRemove x s).headers c :=
      update_of_ne hc _ _
    rw [hother]
    exact ⟨(hblock c).totalSize, (hblock c).pageCount⟩

section

variable (h : Inv src s live free)
include h

theorem reused {l m : List ℕ} {x size : ℕ} (hfree : free = l ++ x :: m)
    (hfits : kHeaderSize + size ≤ (s.headers x).totalSize) :
    Inv src (reuse x size s).2 (live ++ [⟨userData x, size⟩]) (l ++ m) := by
  subst hfree
  obtain ⟨hlist, hsame, hblock⟩ := freeListRemove_spec h.freeList
  have hheader : headerOf ⟨userData x, size⟩ = x := Nat.add_sub_cancel _ _
  have hself : (reuse x size s).2.headers x =
      { (freeListRemove x s).headers x with flags := .inUse, userSize := size } :=
    update_self _ _ _
  have hother : ∀ c, c ≠ x → (reuse x size s).2.headers c = (freeListRemove x s).headers c :=
    fun c hc => update_of_ne hc _ _
  have hnodup := (nodup_append.mp h.freeList.segment.nodup)
  have hxl : x ∉ l := fun hmem => hnodup.2.2 x hmem x mem_cons_self rfl
  have hxm : x ∉ m := (nodup_cons.mp hnodup.2.1).1
  have hne : ∀ c ∈ l ++ m, c ≠ x := by
    rintro c hc rfl
    exact (mem_append.mp hc).elim hxl hxm
  have hsub : ∀ c ∈ l ++ m, c ∈ l ++ x :: m := fun c hc =>
    (mem_append.mp hc).elim (mem_append_left _)
      fun hm => mem_append_right _ (mem_cons_of_mem _ hm)
  have hlinks : nextOf (reuse x size s).2.headers = nextOf (freeListRemove x s).headers ∧
      prevOf (reuse x size s).2.headers = prevOf (freeListRemove x s).headers := by
    constructor
    · funext c
      by_cases hc : c = x
      · rw [hc, nextOf, hself, nextOf]
      · rw [nextOf, hother c hc, nextOf]
    · funext c
      by_cases hc : c = x
      · rw [hc, prevOf, hself, prevOf]
      · rw [prevOf, hother c hc, prevOf]
  have hsize := fun c => reuse_size h.freeList size c
  have hperm : (blocks (live ++ [⟨userData x, size⟩]) (l ++ m)).Perm (blocks live (l ++ x :: m)) := by
    unfold blocks
    rw [map_append, map_singleton, hheader, append_assoc, singleton_append]
    exact (perm_middle.symm).append_left _
  have hrest : SameButList s (reuse x size s).2 :=
    ⟨hsame.memory, hsame.pages, hsame.arenaBase, hsame.arenaCursor, hsame.arenaEnd⟩
  obtain ⟨hpages, hapart, hoff⟩ := h.place hperm (fun c _ => hsize c) hrest.pages
    hrest.arenaCursor hrest.arenaEnd
  refine ⟨hpages, hapart, hoff, arena_congr h.arena hrest, fun c hc => ?_, ?_, ?_, fun c hc => ?_⟩
  · rcases mem_append.mp hc with hold | hnew
    · have hcx : headerOf c ≠ x := fun heq => h.header_notMem hold (by rw [heq]; simp)
      obtain ⟨haddress, huser, hfits, hinUse⟩ := h.user c hold
      have hkeep := hother _ hcx
      refine ⟨haddress, ?_, ?_, ?_⟩
      · rw [hkeep]
        exact (hblock _).userSize.trans huser
      · rw [hkeep, (hblock _).totalSize]
        exact hfits
      · rw [hkeep]
        exact (hblock _).flags.trans hinUse
    · obtain rfl := mem_singleton.mp hnew
      refine ⟨by rw [hheader], ?_, ?_, ?_⟩
      · rw [hheader, hself]
      · rw [hheader, hself, (hblock x).totalSize]
        exact hfits
      · rw [hheader, hself]
  · rw [FreeList, hlinks.1, hlinks.2]
    exact hlist
  · refine (h.sorted.sublist ?_).imp fun {c d} hle => ?_
    · exact (sublist_cons_self x m).append_left l
    · rw [(hsize c).1, (hsize d).1]
      exact hle
  · rw [hother c (hne c hc), (hblock c).flags]
    exact h.flags c (hsub c hc)

theorem added {x size n : ℕ} (hn : 0 < n) (hregion : Region src s'.pages x n)
    (hcount : pagesRequired size % 2 ^ 32 ≤ n) (hfits : kHeaderSize + size ≤ kPageSize * n)
    (hheaders : s'.headers = update s.headers x (newBlock size (kPageSize * n)))
    (hlist : s'.freeList = s.freeList) (hhanded : ∀ a, src.handed s.pages a → src.handed s'.pages a)
    (hapart : ∀ b ∈ blocks live free, b + (s.headers b).totalSize ≤ x ∨ x + kPageSize * n ≤ b)
    (hoff : ∀ b ∈ blocks live free, b + (s.headers b).totalSize ≤ s'.arenaCursor ∨ s'.arenaEnd ≤ b)
    (hoffNew : x + kPageSize * n ≤ s'.arenaCursor ∨ s'.arenaEnd ≤ x) (harena : ArenaOk src s') :
    Inv src s' (live ++ [⟨userData x, size⟩]) free := by
  have hheader : headerOf ⟨userData x, size⟩ = x := Nat.add_sub_cancel _ _
  have hself : s'.headers x = newBlock size (kPageSize * n) := by
    rw [hheaders, update_self]
  have hpos : 0 < kPageSize * n := Nat.mul_pos (by decide) hn
  have hne : ∀ b ∈ blocks live free, b ≠ x := by
    rintro b hb rfl
    obtain ⟨k, hk, htotal, -⟩ := h.inPages b hb
    have hpos' : 0 < kPageSize * k := Nat.mul_pos (by decide) hk
    have := hapart b hb
    omega
  have hkeep : ∀ b ∈ blocks live free, s'.headers b = s.headers b := fun b hb => by
    rw [hheaders, update_of_ne (hne b hb)]
  have hperm : (blocks (live ++ [⟨userData x, size⟩]) free).Perm (x :: blocks live free) := by
    unfold blocks
    rw [map_append, map_singleton, hheader, append_assoc, singleton_append]
    exact perm_middle
  have hmem : ∀ b, b ∈ blocks (live ++ [⟨userData x, size⟩]) free ↔
      b = x ∨ b ∈ blocks live free := fun b => hperm.mem_iff.trans mem_cons
  refine ⟨fun b hb => ?_, ?_, fun b hb => ?_, harena, fun b hb => ?_, ?_, ?_, fun b hb => ?_⟩
  · rcases (hmem b).mp hb with rfl | hold
    · exact ⟨n, hn, by rw [hself]; rfl, by rw [hself]; exact hcount, hregion⟩
    · obtain ⟨k, hk, htotal, hle, hk'⟩ := h.inPages b hold
      refine ⟨k, hk, ?_, ?_, hk'.mono hhanded⟩
      · rw [hkeep b hold]
        exact htotal
      · rw [hkeep b hold]
        exact hle
  · refine (hperm.pairwise_iff Apart.symm).mpr (pairwise_cons.mpr ⟨fun b hb => ?_, ?_⟩)
    · unfold Apart
      rw [hself, hkeep b hb]
      exact (hapart b hb).symm
    · refine h.apart.imp_of_mem fun {b c} hb hc hbc => ?_
      unfold Apart
      rw [hkeep b hb, hkeep c hc]
      exact hbc
  · unfold OffArena
    rcases (hmem b).mp hb with rfl | hold
    · rw [hself]
      exact hoffNew
    · rw [hkeep b hold]
      exact hoff b hold
  · rcases mem_append.mp hb with hold | hnew
    · obtain ⟨haddress, huser, hfits, hinUse⟩ := h.user b hold
      have hsame := hkeep _ (header_mem hold)
      refine ⟨haddress, ?_, ?_, ?_⟩
      · rw [hsame]
        exact huser
      · rw [hsame]
        exact hfits
      · rw [hsame]
        exact hinUse
    · obtain rfl := mem_singleton.mp hnew
      refine ⟨by rw [hheader], ?_, ?_, ?_⟩
      · rw [hheader, hself]
        rfl
      · rw [hheader, hself]
        exact hfits
      · rw [hheader, hself]
        rfl
  · rw [FreeList, hlist]
    refine h.freeList.congr (fun b hb => ?_) fun b hb => ?_
    · rw [nextOf, hkeep b (free_mem hb), nextOf]
    · rw [prevOf, hkeep b (free_mem hb), prevOf]
  · refine h.sorted.imp_of_mem fun {b c} hb hc hle => ?_
    rw [hkeep b (free_mem hb), hkeep c (free_mem hc)]
    exact hle
  · rw [hkeep b (free_mem hb)]
    exact h.flags b hb

theorem apart_of_grant {p' : P} {r : Pages} {n : ℕ} (hn : 0 < n)
    (hgrant : PageGrant (src.handed s.pages) (src.handed p') n r) : (∀ b ∈ blocks live free,
      b + (s.headers b).totalSize ≤ r.address ∨ r.address + kPageSize * n ≤ b) ∧
      (s.arenaEnd ≤ r.address ∨ r.address + kPageSize * n ≤ s.arenaCursor) := by
  refine ⟨fun b hb => ?_, ?_⟩
  · obtain ⟨k, hk, htotal, -, hregion⟩ := h.inPages b hb
    rw [htotal]
    exact hregion.apart hk hn hgrant.aligned hgrant.fresh
  · rcases h.arena with ⟨-, -, hend⟩ | ⟨k, m, hk, hm, hcursor, hend, hregion⟩
    · rw [hend]
      exact .inl (Nat.zero_le _)
    · rcases hregion.apart hm hn hgrant.aligned hgrant.fresh with hle | hle
      · rw [hend]
        exact .inl hle
      · rw [hcursor]
        exact .inr (by omega)

theorem grown (hgrow : growArena src s = some s') : Inv src s' live free := by
  obtain ⟨⟨chunk, pages⟩, hrequest, rfl⟩ := Option.map_eq_some_iff.mp hgrow
  have hgrant := src.pages_grant _ _ _ _ (by decide) hrequest
  have hapart := (h.apart_of_grant (by decide) hgrant).1
  have hregion := Region.of_grant hgrant
  have hfits := hgrant.fits
  have hend : (chunk.address + chunk.size) % kWordRange =
      chunk.address + kPageSize * kArenaChunkPages := by
    rw [hgrant.size, mod_eq_of_lt hfits]
  refine ⟨fun b hb => ?_, h.apart, fun b hb => ?_, .inr ⟨0, kArenaChunkPages, by decide, by decide,
    rfl, hend, hregion⟩, fun b hb => ?_, h.freeList, h.sorted, h.flags⟩
  · obtain ⟨n, hn, htotal, hle, hn'⟩ := h.inPages b hb
    exact ⟨n, hn, htotal, hle, hn'.mono fun a ha => (hgrant.handed a).mpr (.inl ha)⟩
  · simp only [hend]
    exact hapart b hb
  · obtain ⟨haddress, huser, hfits, hinUse⟩ := h.user b hb
    exact ⟨haddress, huser, hfits, hinUse⟩

end

end Inv

theorem pagesRequired_spec {size : ℕ} (h : size + kHeaderSize + kPageSize - 1 < kWordRange) :
    0 < pagesRequired size ∧ kHeaderSize + size ≤ kPageSize * pagesRequired size ∧
      allocBytes size = kPageSize * pagesRequired size ∧
      kPageSize * pagesRequired size < kWordRange := by
  have hmod : pagesRequired size = (size + kHeaderSize + kPageSize - 1) / kPageSize := by
    rw [pagesRequired, mod_eq_of_lt h]
  have hdiv := div_add_mod (size + kHeaderSize + kPageSize - 1) kPageSize
  have hlt : (size + kHeaderSize + kPageSize - 1) % kPageSize < kPageSize :=
    mod_lt _ (by decide)
  rw [← hmod] at hdiv
  have hbytes : kPageSize * pagesRequired size < kWordRange := by omega
  have hmul : pagesRequired size * kPageSize = kPageSize * pagesRequired size := Nat.mul_comm _ _
  refine ⟨?_, by unfold kPageSize kHeaderSize at *; omega, ?_, hbytes⟩
  · unfold kPageSize kHeaderSize at *
    omega
  · rw [allocBytes, hmul, mod_eq_of_lt hbytes]

namespace Inv

variable {live : List Block} {free : List ℕ}

theorem bumped (h : Inv src s live free) {size : ℕ}
    (hsize : size + kHeaderSize + kPageSize - 1 < kWordRange)
    (hsum : s.arenaCursor + allocBytes size < kWordRange) (hfits : fitsArena size s = true) :
    Inv src (bump size s).2 (live ++ [⟨userData s.arenaCursor, size⟩]) free := by
  obtain ⟨hpos, hhold, hbytes, -⟩ := pagesRequired_spec hsize
  rw [fitsArena, mod_eq_of_lt hsum, decide_eq_true_eq] at hfits
  have hcursor : (bump size s).2.arenaCursor = s.arenaCursor + allocBytes size :=
    mod_eq_of_lt hsum
  have hmul : 0 < kPageSize * pagesRequired size := Nat.mul_pos (by decide) hpos
  rcases h.arena with ⟨-, hzero, hend⟩ | ⟨k, n, hk, hn, hk', hn', hregion⟩
  · omega
  · have hle : k + pagesRequired size ≤ n := by
      rw [hk', hn', hbytes, Nat.add_assoc, ← Nat.mul_add] at hfits
      exact Nat.le_of_mul_le_mul_left (Nat.le_of_add_le_add_left hfits) (by decide)
    have hpart := hregion.part hle
    rw [← hk'] at hpart
    refine h.added hpos hpart (mod_le _ _) hhold ?_ rfl (fun _ ha => ha) (fun b hb => ?_)
      (fun b hb => ?_) ?_ (.inr ⟨k + pagesRequired size, n, hle, hn, ?_, hn', hregion⟩)
    · rw [← hbytes]
      rfl
    · rcases h.offArena b hb with hoff | hoff
      · exact .inl hoff
      · rw [← hbytes]
        exact .inr (Nat.le_trans hfits hoff)
    · rw [hcursor]
      rcases h.offArena b hb with hoff | hoff
      · exact .inl (by omega)
      · exact .inr hoff
    · rw [hcursor, hbytes]
      exact .inl le_rfl
    · rw [hcursor, hbytes, hk', Nat.mul_add, Nat.add_assoc]
      rfl

theorem direct (h : Inv src s live free) {size : ℕ}
    (hsize : size + kHeaderSize + kPageSize - 1 < kWordRange) {r : Option ℕ}
    (hdirect : allocateDirect src size s = (r, s')) :
    Inv src s' (live ++ (r.map fun a => ⟨a, size⟩).toList) free := by
  obtain ⟨hpos, hhold, hbytes, hlt⟩ := pagesRequired_spec hsize
  rw [allocateDirect] at hdirect
  cases hrequest : src.requestPages (pagesRequired size) s.pages with
  | none =>
    rw [hrequest] at hdirect
    cases hdirect
    simpa using h
  | some p =>
    obtain ⟨memory, pages⟩ := p
    rw [hrequest] at hdirect
    cases hdirect
    have hrange : pagesRequired size < kWordRange :=
      Nat.lt_of_le_of_lt (Nat.le_mul_of_pos_left _ (by decide)) hlt
    have hgrant := src.pages_grant _ _ _ _ hrange hrequest
    obtain ⟨hapart, harena⟩ := h.apart_of_grant hpos hgrant
    refine h.added hpos (Region.of_grant hgrant) (mod_le _ _) hhold ?_ rfl
      (fun a ha => (hgrant.handed a).mpr (.inl ha)) hapart (fun b hb => h.offArena b hb)
      harena.symm ?_
    · rw [hgrant.size]
    · rcases h.arena with hnone | ⟨k, n, hk, hn, hk', hn', hregion⟩
      · exact .inl hnone
      · exact .inr ⟨k, n, hk, hn, hk', hn',
          hregion.mono fun a ha => (hgrant.handed a).mpr (.inl ha)⟩

end Inv

end Equilibrium.HeapAllocator
