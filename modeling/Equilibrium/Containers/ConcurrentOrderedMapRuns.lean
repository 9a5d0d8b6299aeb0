import Equilibrium.Containers.ConcurrentOrderedMapLists
import Mathlib.Data.List.Find
import Mathlib.Algebra.BigOperators.Group.Finset.Piecewise

/-! Runs of `ConcurrentOrderedMap`: the nodes are the entries that the run leaves. -/

namespace Equilibrium.ConcurrentOrderedMap

open Library.LinkedChain Library.DoublyLinked List Nat
open Function (update update_self update_of_ne)

variable {Key Value : Type} [Hashable Key] {m m' : ConcurrentOrderedMap Key Value}
  {es l r : List (Entry Key Value)} {e : Entry Key Value} {key : Key} {value : Value} {x i : ℕ}

def addresses (es : List (Entry Key Value)) : List ℕ := es.map (·.address)

def chainAt (count i : ℕ) (es : List (Entry Key Value)) : List ℕ :=
  (addresses (es.filter fun e => (hash e.key).toNat % count = i)).reverse

structure Represents (m : ConcurrentOrderedMap Key Value) (es : List (Entry Key Value)) :
    Prop where
  count_pos : 0 < m.bucketCount
  order : Linked m.orderNext m.orderPrev none m.orderHead (addresses es) none
  tail : m.orderTail = (addresses es).getLast?
  chain : ∀ i < m.bucketCount, Segment m.next (m.buckets i) (chainAt m.bucketCount i es) none
  stored : ∀ e, m.pair e.address = some (e.key, e.value) ↔ e ∈ es
  valid : ∀ e ∈ es, 0 < e.address ∧ e.address < addressSpace
  size : m.size = es.length

variable {count : ℕ}

theorem represents_construct (h : 0 < count) :
    (construct count : ConcurrentOrderedMap Key Value).Represents [] :=
  ⟨h, rfl, rfl, fun _ _ => rfl, fun _ => iff_of_false nofun nofun, nofun, rfl⟩

omit [Hashable Key] in
theorem mem_addresses : x ∈ addresses es ↔ ∃ e ∈ es, e.address = x := List.mem_map

theorem mem_chainAt :
    x ∈ chainAt count i es ↔ ∃ e ∈ es, (hash e.key).toNat % count = i ∧ e.address = x := by
  simp [chainAt, addresses, and_assoc]

theorem chainAt_append : chainAt count i (l ++ r) = chainAt count i r ++ chainAt count i l := by
  rw [chainAt, chainAt, filter_append, addresses, map_append, reverse_append]
  rfl

theorem chainAt_cons_self : chainAt count ((hash e.key).toNat % count) (e :: r) =
      chainAt count ((hash e.key).toNat % count) r ++ [e.address] := by
  rw [chainAt, filter_cons_of_pos (by simp), addresses, map_cons, reverse_cons]
  rfl

theorem chainAt_cons_ne (h : (hash e.key).toNat % count ≠ i) :
    chainAt count i (e :: r) = chainAt count i r := by
  rw [chainAt, filter_cons_of_neg (by simpa using h)]
  rfl

omit [Hashable Key] in
/-- Fewer nodes than addresses. -/
theorem length_lt (hnodup : (addresses es).Nodup)
    (hvalid : ∀ e ∈ es, 0 < e.address ∧ e.address < addressSpace) : es.length < addressSpace := by
  have hsub : addresses es ⊆ range' 1 (addressSpace - 1) := by
    intro x hx
    obtain ⟨e, he, rfl⟩ := mem_addresses.mp hx
    have := hvalid e he
    exact mem_range'_1.mpr ⟨this.1, by omega⟩
  have hle := (subperm_of_subset hnodup hsub).length_le
  rw [length_range', addresses, length_map] at hle
  have hpos : 0 < addressSpace := Nat.two_pow_pos 64
  omega

namespace Represents

variable (h : m.Represents es)

include h

theorem nodup : (addresses es).Nodup := h.order.segment.nodup

theorem lt : es.length < addressSpace := length_lt h.nodup h.valid

theorem mem_iff : x ∈ addresses es ↔ m.pair x ≠ none := by
  rw [mem_addresses]
  constructor
  · rintro ⟨e, he, rfl⟩
    rw [(h.stored e).mpr he]
    exact nofun
  · intro hx
    obtain ⟨p, hp⟩ := Option.ne_none_iff_exists'.mp hx
    exact ⟨⟨x, p.1, p.2⟩, (h.stored ⟨x, p.1, p.2⟩).mp hp, rfl⟩

theorem alive {p : Option ℕ} (hp : ∀ x, p = some x → x ∈ addresses es) : m.Alive p :=
  fun x hx => exists_node_iff.mpr (h.mem_iff.mp (hp x hx))

theorem alive_tail : m.Alive m.orderTail := by
  refine h.alive fun x hx => ?_
  rw [h.tail] at hx
  exact mem_of_getLast? hx

theorem eq_of_address {f : Entry Key Value} (he : e ∈ es) (hf : f ∈ es)
    (heq : e.address = f.address) : e = f := by
  have he' := (h.stored e).mpr he
  rw [heq, (h.stored f).mpr hf] at he'
  cases e
  cases f
  simp_all

theorem insert (hx : m.Free x) (hm : Inserted m m' x key value) :
    m'.Represents (es ++ [⟨x, key, value⟩]) := by
  obtain ⟨hpos, hlt, hnone⟩ := hx
  have hmem : x ∉ addresses es := fun hmem => h.mem_iff.mp hmem hnone
  have hcount := hm.bucketCount
  have haddr : addresses (es ++ [⟨x, key, value⟩]) = addresses es ++ [x] := map_append
  have htail : m.orderTail = none ↔ addresses es = [] := by
    rw [h.tail]
    exact getLast?_eq_none_iff
  have horder : Linked m'.orderNext m'.orderPrev none m'.orderHead
      (addresses (es ++ [⟨x, key, value⟩])) none := by
    have hins := Linked.insert (m := []) (by simpa using h.order)
      (by simpa using hmem)
    rw [hm.orderNext, hm.orderPrev, hm.orderHead, haddr, h.tail]
    rw [← h.tail, if_congr htail rfl rfl, h.tail]
    exact hins
  have hvalid : ∀ e ∈ es ++ [⟨x, key, value⟩], 0 < e.address ∧ e.address < addressSpace := by
    intro e he
    rcases mem_append.mp he with he | he
    · exact h.valid e he
    · rw [mem_singleton.mp he]
      exact ⟨hpos, hlt⟩
  refine ⟨hcount ▸ h.count_pos, horder, ?_, ?_, ?_, hvalid, ?_⟩
  · rw [hm.orderTail, haddr, getLast?_append_cons, getLast?_singleton]
  · intro i hi
    rw [hcount] at hi ⊢
    have hnot : x ∉ chainAt m.bucketCount i es := by
      intro hc
      obtain ⟨e, he, -, rfl⟩ := mem_chainAt.mp hc
      exact hmem (mem_addresses.mpr ⟨e, he, rfl⟩)
    have hold := (h.chain i hi).update (r := m.buckets (m.bucketIndex key)) hnot
    rw [chainAt_append, hm.next, hm.buckets]
    by_cases hidx : i = m.bucketIndex key
    · subst hidx
      rw [update_self, bucketIndex,
        chainAt_cons_self (e := (⟨x, key, value⟩ : Entry Key Value))]
      refine ⟨rfl, ?_⟩
      rw [update_self]
      exact hold
    · rw [update_of_ne hidx, chainAt_cons_ne (fun heq => hidx heq.symm)]
      exact hold
  · intro e
    rw [hm.pair, mem_append, mem_singleton]
    by_cases hex : e.address = x
    · rw [hex, update_self]
      have he : e ∉ es := fun he => hmem (mem_addresses.mpr ⟨e, he, hex⟩)
      constructor
      · intro heq
        exact .inr (by cases e; simp_all)
      · rintro (he' | rfl)
        · exact absurd he' he
        · rfl
    · rw [update_of_ne hex, h.stored]
      exact ⟨.inl, fun he => he.resolve_right fun heq => hex (by rw [heq])⟩
  · rw [hm.size, h.size, length_append]
    exact mod_eq_of_lt (by
      have := length_lt horder.segment.nodup hvalid
      rw [length_append] at this
      exact this)

end Represents

section Remove

section

omit [Hashable Key]

theorem removeEntry_split (hnodup : (addresses (l ++ e :: r)).Nodup) :
    removeEntry e (l ++ e :: r) = l ++ r := by
  rw [addresses, map_append, map_cons, nodup_middle] at hnodup
  have hmem := (nodup_cons.mp hnodup).1
  rw [← map_append] at hmem
  have hne : ∀ f ∈ l ++ r, f.address ≠ e.address := fun f hf heq =>
    hmem (heq ▸ mem_map_of_mem hf)
  rw [removeEntry, filter_append, filter_cons_of_neg (by simp), ← filter_append]
  exact filter_eq_self.mpr fun f hf => decide_eq_true (hne f hf)

theorem addresses_split : addresses (l ++ e :: r) = addresses l ++ e.address :: addresses r := by
  simp [addresses]

end

theorem chainAt_split : chainAt m.bucketCount (m.bucketIndex e.key) (l ++ e :: r) =
    chainAt m.bucketCount (m.bucketIndex e.key) r ++
      e.address :: chainAt m.bucketCount (m.bucketIndex e.key) l := by
  rw [chainAt_append, bucketIndex, chainAt_cons_self, append_assoc]
  rfl

variable (h : m.Represents (l ++ e :: r))

include h

theorem Represents.orderNext_eq : m.orderNext e.address = (addresses r).head? := by
  have horder := h.order
  rw [addresses_split] at horder
  exact horder.next_eq

theorem Represents.orderPrev_eq : m.orderPrev e.address = (addresses l).getLast? := by
  have horder := h.order
  rw [addresses_split] at horder
  exact horder.prev_eq

theorem Represents.remove
    (hm : Removed m m' (m.bucketIndex e.key)
      (chainAt m.bucketCount (m.bucketIndex e.key) r).getLast? e.address) :
    m'.Represents (l ++ r) := by
  have hcount := hm.bucketCount
  have hnodup := h.nodup
  have hnext := h.orderNext_eq
  have hprev := h.orderPrev_eq
  have horder := h.order
  rw [addresses_split] at hnodup horder
  have hmem : e.address ∉ addresses l ++ addresses r := by
    have := (nodup_middle.mp hnodup)
    exact (nodup_cons.mp this).1
  have haddr : addresses (l ++ r) = addresses l ++ addresses r := map_append
  have hsub : ∀ f ∈ l ++ r, f ∈ l ++ e :: r := by
    intro f hf
    rcases mem_append.mp hf with hf | hf
    · exact mem_append_left _ hf
    · exact mem_append_right _ (mem_cons_of_mem _ hf)
  have hne : ∀ f ∈ l ++ r, f.address ≠ e.address := by
    intro f hf heq
    refine hmem ?_
    rw [← haddr, ← heq]
    exact mem_map_of_mem hf
  refine ⟨hcount ▸ h.count_pos, ?_, ?_, ?_, ?_, fun f hf => h.valid f (hsub f hf), ?_⟩
  · rw [hm.orderNext, hm.orderPrev, hm.orderHead, haddr]
    exact horder.remove.congr
      (fun y hy => update_of_ne (ne_of_mem_of_not_mem hy hmem) _ _)
      fun y hy => update_of_ne (ne_of_mem_of_not_mem hy hmem) _ _
  · rw [hm.orderTail, hnext, hprev, haddr, h.tail, addresses_split]
    cases hr : addresses r with
    | nil => rw [head?_nil, if_pos rfl, append_nil]
    | cons y ys =>
      rw [if_neg nofun, getLast?_append_cons, getLast?_append_cons, getLast?_cons_cons]
  · intro i hi
    rw [hcount] at hi ⊢
    have hnot : e.address ∉ chainAt m.bucketCount i (l ++ r) := by
      intro hc
      obtain ⟨f, hf, -, heq⟩ := mem_chainAt.mp hc
      exact hne f hf heq
    rw [hm.next, hm.buckets]
    refine Segment.update ?_ hnot
    have hchain := h.chain i hi
    by_cases hidx : i = m.bucketIndex e.key
    · subst hidx
      rw [chainAt_split] at hchain
      have hr := segment_remove hchain
      rw [chainAt_append]
      generalize chainAt m.bucketCount (m.bucketIndex e.key) r = c at hr ⊢
      by_cases hc : c = []
      · rw [hc] at hr
        rw [hc, getLast?_nil, if_pos rfl, update_self]
        exact hr
      · rw [if_neg hc] at hr
        rw [if_neg (by simpa using hc)]
        exact hr
    · have hsame : chainAt m.bucketCount i (l ++ e :: r) = chainAt m.bucketCount i (l ++ r) := by
        rw [chainAt_append, chainAt_append, chainAt_cons_ne fun heq => hidx heq.symm]
      have hbuckets : (if (chainAt m.bucketCount (m.bucketIndex e.key) r).getLast? = none then
          update m.buckets (m.bucketIndex e.key) (m.next e.address) else m.buckets) i =
          m.buckets i := by
        split
        · exact update_of_ne hidx _ _
        · rfl
      rw [hbuckets]
      rw [hsame] at hchain
      refine hchain.congr fun y hy => setLink_of_ne fun hlast => hidx ?_
      obtain ⟨f, hf, hfi, rfl⟩ := mem_chainAt.mp hy
      obtain ⟨g, hg, hgi, hfg⟩ := mem_chainAt.mp (mem_of_getLast? hlast)
      have hgmem : g ∈ l ++ e :: r :=
        mem_append_right _ (mem_cons_of_mem _ hg)
      rw [← hfi, h.eq_of_address (hsub f hf) hgmem hfg.symm]
      exact hgi
  · intro f
    rw [hm.pair]
    by_cases hf : f.address = e.address
    · rw [hf, update_self]
      exact iff_of_false nofun fun hmem => hne f hmem hf
    · rw [update_of_ne hf, h.stored]
      refine ⟨fun hfm => ?_, hsub f⟩
      rcases mem_append.mp hfm with hfm | hfm
      · exact mem_append_left _ hfm
      · rcases mem_cons.mp hfm with rfl | hfm
        · exact absurd rfl hf
        · exact mem_append_right _ hfm
  · rw [hm.size, h.size]
    simp

end Remove

section Assign

omit [Hashable Key] in
theorem addresses_assignEntry : addresses (assignEntry e value es) = addresses es := by
  rw [addresses, assignEntry, List.map_map]
  refine List.map_congr_left fun f _ => ?_
  rw [Function.comp_apply]
  split
  · rfl
  · rfl

theorem chainAt_assignEntry {count : ℕ} :
    chainAt count i (assignEntry e value es) = chainAt count i es := by
  induction es with
  | nil => rfl
  | cons f es ih =>
    have hcons : ∀ g : Entry Key Value, ∀ t, chainAt count i (g :: t) =
        chainAt count i t ++ if (hash g.key).toNat % count = i then [g.address] else [] := by
      intro g t
      split
      · next hg =>
        subst hg
        exact chainAt_cons_self
      · next hg => rw [chainAt_cons_ne hg, append_nil]
    have hmap : assignEntry e value (f :: es) =
      (if f.address = e.address then { f with value := value } else f) ::
        assignEntry e value es := rfl
    rw [hmap, hcons, hcons, ih]
    split
    · rfl
    · rfl

theorem Represents.assign (h : m.Represents es) (he : e ∈ es) {n : Node Key Value}
    (hn : m.nodes e.address = some n) :
    (m.put e.address { n with value := value }).Represents (assignEntry e value es) := by
  have hpair := pair_eq hn
  rw [(h.stored e).mpr he] at hpair
  have hkey : e.key = n.key := (Prod.ext_iff.mp (Option.some.inj hpair)).1
  have haddr : addresses (assignEntry e value es) = addresses es := addresses_assignEntry
  have hnext : (m.put e.address { n with value := value }).next = m.next := next_put_eq hn rfl
  have horderNext : (m.put e.address { n with value := value }).orderNext = m.orderNext :=
    orderNext_put_eq hn rfl
  have horderPrev : (m.put e.address { n with value := value }).orderPrev = m.orderPrev :=
    orderPrev_put_eq hn rfl
  refine ⟨h.count_pos, ?_, ?_, ?_, ?_, ?_, ?_⟩
  · rw [haddr, horderNext, horderPrev]
    exact h.order
  · rw [haddr]
    exact h.tail
  · intro i hi
    rw [hnext]
    have hsame : chainAt m.bucketCount i (assignEntry e value es) = chainAt m.bucketCount i es :=
      chainAt_assignEntry
    exact hsame.symm ▸ h.chain i hi
  · intro f
    rw [pair_put, assignEntry, List.mem_map]
    by_cases hf : f.address = e.address
    · rw [hf, update_self]
      constructor
      · intro heq
        refine ⟨e, he, ?_⟩
        cases f
        simp_all
      · rintro ⟨g, hg, rfl⟩
        have hge : g.address = e.address := by
          split at hf
          · assumption
          · exact hf
        obtain rfl := h.eq_of_address hg he hge
        rw [if_pos rfl]
        rw [hkey]
    · rw [update_of_ne hf, h.stored]
      constructor
      · intro hfm
        exact ⟨f, hfm, if_neg hf⟩
      · rintro ⟨g, hg, rfl⟩
        by_cases hge : g.address = e.address
        · rw [if_pos hge] at hf
          exact absurd hge hf
        · rw [if_neg hge]
          exact hg
  · intro f hf
    obtain ⟨g, hg, rfl⟩ := List.mem_map.mp hf
    have hgv := h.valid g hg
    split
    · exact hgv
    · exact hgv
  · rw [assignEntry, length_map]
    exact h.size

end Assign

section Clear

omit [Hashable Key] in
/-- The walk leaves out of the store the nodes that it meets. -/
theorem deleteLoop_spec {p : Option ℕ} {xs : List ℕ} (hseg : Segment m.orderNext p xs none)
    (hlive : ∀ x ∈ xs, ∃ n, m.nodes x = some n) {rounds : ℕ} (hrounds : xs.length ≤ rounds) :
    deleteLoop rounds m p =
      .ok { m with nodes := fun x => if x ∈ xs then none else m.nodes x } := by
  induction xs generalizing m p rounds with
  | nil =>
    rw [hseg]
    simp [deleteLoop]
  | cons y ys ih =>
    have hnodup := nodup_cons.mp hseg.nodup
    obtain ⟨rfl, htail⟩ := hseg
    obtain ⟨n, hn⟩ := hlive y mem_cons_self
    cases rounds with
    | zero => simp at hrounds
    | succ rounds =>
      have hseg' : Segment (m.free y).orderNext (m.orderNext y) ys none := by
        rw [orderNext_free]
        exact htail.update hnodup.1
      have hlive' : ∀ x ∈ ys, ∃ n, (m.free y).nodes x = some n := by
        intro x hx
        obtain ⟨k, hk⟩ := hlive x (mem_cons_of_mem _ hx)
        exact ⟨k, (update_of_ne (ne_of_mem_of_not_mem hx hnodup.1) _ _).trans hk⟩
      have hstep : deleteLoop (rounds + 1) m (some y) =
          deleteLoop rounds (m.free y) (m.orderNext y) := by
        simp only [deleteLoop, load_eq hn, deleteNode, bind, Except.bind, pure, Except.pure,
          orderNext_eq hn]
      rw [hstep, ih hseg' hlive' (le_of_succ_le_succ hrounds)]
      refine congrArg Except.ok ?_
      have hnodes : (fun x => if x ∈ ys then none else (m.free y).nodes x) =
          fun x => if x ∈ y :: ys then none else m.nodes x := by
        funext x
        by_cases hxy : x = y
        · subst hxy
          rw [if_neg hnodup.1, if_pos mem_cons_self]
          exact update_self _ _ _
        · have hfree : (m.free y).nodes x = m.nodes x := update_of_ne hxy _ _
          rw [hfree]
          exact if_congr (by rw [mem_cons, or_iff_right hxy]) rfl rfl
      rw [hnodes]
      rfl

theorem Represents.exists_node (h : m.Represents es) (hx : x ∈ addresses es) :
    ∃ n, m.nodes x = some n := exists_node_iff.mpr (h.mem_iff.mp hx)

theorem Represents.clear (h : m.Represents es) : ∃ m', m.clear = .ok m' ∧ m'.Represents [] := by
  have hlength : (addresses es).length ≤ addressSpace := by
    rw [addresses, length_map]
    exact Nat.le_of_lt h.lt
  have hloop := deleteLoop_spec h.order.segment (fun x hx => h.exists_node hx) hlength
  refine ⟨⟨fun i => if i < m.bucketCount then none else m.buckets i, m.bucketCount, none, none, 0,
    fun x => if x ∈ addresses es then none else m.nodes x⟩, ?_, h.count_pos, rfl, rfl, ?_, ?_,
    nofun, rfl⟩
  · rw [ConcurrentOrderedMap.clear, hloop]
    rfl
  · intro i hi
    exact if_pos hi
  · intro e
    refine iff_of_false ?_ nofun
    intro he
    obtain ⟨n, hn, -⟩ := ConcurrentOrderedMap.exists_node he
    have hn' : (if e.address ∈ addresses es then none else m.nodes e.address) = some n := hn
    split at hn'
    · cases hn'
    · next hmem => exact hmem (h.mem_iff.mpr (exists_node_iff.mp ⟨n, hn'⟩))

end Clear

section Walks

variable [BEq Key]

def hasKey (m : ConcurrentOrderedMap Key Value) (key : Key) (x : ℕ) : Bool :=
  (m.pair x).any fun p => p.1 == key

omit [Hashable Key] in
theorem hasKey_eq {n : Node Key Value} (hn : m.nodes x = some n) :
    m.hasKey key x = (n.key == key) := by rw [hasKey, pair_eq hn, Option.any_some]

variable {p : Option ℕ} {rounds : ℕ}

section

omit [Hashable Key]

theorem findLoop_spec {xs : List ℕ} (hseg : Segment m.next p xs none)
    (hlive : ∀ x ∈ xs, ∃ n, m.nodes x = some n) (hrounds : xs.length ≤ rounds) :
    m.findLoop key rounds p = .ok (xs.find? (m.hasKey key)) := by
  induction xs generalizing p rounds with
  | nil =>
    rw [hseg, findLoop, find?_nil]
  | cons y ys ih =>
    obtain ⟨rfl, htail⟩ := hseg
    obtain ⟨n, hn⟩ := hlive y mem_cons_self
    cases rounds with
    | zero => simp at hrounds
    | succ rounds =>
      have hrest := ih htail (fun x hx => hlive x (mem_cons_of_mem _ hx))
        (le_of_succ_le_succ hrounds)
      rw [findLoop, load_eq hn, find?_cons, hasKey_eq hn]
      simp only [bind, Except.bind]
      cases hkey : n.key == key with
      | true => rfl
      | false =>
        rw [← next_eq hn, hrest]
        rfl

theorem removeLoop_of_none {idx : ℕ} {prev : Option ℕ} {xs : List ℕ}
    (hseg : Segment m.next p xs none) (hlive : ∀ x ∈ xs, ∃ n, m.nodes x = some n)
    (hnone : ∀ x ∈ xs, m.hasKey key x = false) (hrounds : xs.length ≤ rounds) :
    m.removeLoop key idx rounds prev p = .ok (m, false) := by
  induction xs generalizing prev p rounds with
  | nil =>
    rw [hseg, removeLoop]
  | cons y ys ih =>
    obtain ⟨rfl, htail⟩ := hseg
    obtain ⟨n, hn⟩ := hlive y mem_cons_self
    have hkey := hnone y mem_cons_self
    rw [hasKey_eq hn] at hkey
    cases rounds with
    | zero => simp at hrounds
    | succ rounds =>
      rw [removeLoop, load_eq hn]
      simp only [bind, Except.bind]
      rw [hkey, ← next_eq hn]
      exact ih htail (fun x hx => hlive x (mem_cons_of_mem _ hx))
        (fun x hx => hnone x (mem_cons_of_mem _ hx)) (le_of_succ_le_succ hrounds)

theorem removeLoop_of_some {idx : ℕ} {prev : Option ℕ} {xs ys : List ℕ}
    (hseg : Segment m.next p (xs ++ x :: ys) none)
    (hlive : ∀ y ∈ xs ++ x :: ys, ∃ n, m.nodes y = some n)
    (hnone : ∀ y ∈ xs, m.hasKey key y = false) (hkey : m.hasKey key x = true)
    (hrounds : (xs ++ x :: ys).length ≤ rounds) : m.removeLoop key idx rounds prev p =
      (m.removeNode idx (lastOr prev xs) x).map fun m => (m, true) := by
  induction xs generalizing prev p rounds with
  | nil =>
    obtain ⟨rfl, -⟩ := hseg
    obtain ⟨n, hn⟩ := hlive x (by simp)
    rw [hasKey_eq hn] at hkey
    cases rounds with
    | zero => simp at hrounds
    | succ rounds =>
      rw [removeLoop, load_eq hn]
      simp only [bind, Except.bind]
      rw [hkey]
      rfl
  | cons z zs ih =>
    obtain ⟨rfl, htail⟩ := hseg
    obtain ⟨n, hn⟩ := hlive z (by simp)
    have hother := hnone z mem_cons_self
    rw [hasKey_eq hn] at hother
    cases rounds with
    | zero => simp at hrounds
    | succ rounds =>
      rw [removeLoop, load_eq hn, lastOr_cons]
      simp only [bind, Except.bind]
      rw [hother, ← next_eq hn]
      exact ih htail (fun y hy => hlive y (mem_cons_of_mem _ hy))
        (fun y hy => hnone y (mem_cons_of_mem _ hy)) (le_of_succ_le_succ hrounds)

end

omit [Hashable Key] [BEq Key] in
theorem orderLoop_spec (hseg : Segment m.orderNext p (addresses es) none)
    (hstored : ∀ e ∈ es, m.pair e.address = some (e.key, e.value)) (hrounds : es.length ≤ rounds) :
    m.orderLoop rounds p = .ok (es.map fun e => (e.key, e.value)) := by
  induction es generalizing p rounds with
  | nil =>
    have hp : p = none := hseg
    rw [hp, orderLoop, map_nil]
  | cons e es ih =>
    obtain ⟨rfl, htail⟩ := hseg
    have hpair := hstored e mem_cons_self
    obtain ⟨n, hn, hkey, hvalue⟩ := ConcurrentOrderedMap.exists_node hpair
    cases rounds with
    | zero => simp at hrounds
    | succ rounds =>
      have hrest := ih htail (fun f hf => hstored f (mem_cons_of_mem _ hf))
        (le_of_succ_le_succ hrounds)
      rw [ConcurrentOrderedMap.orderNext_eq hn] at hrest
      rw [orderLoop, load_eq hn]
      simp only [bind, Except.bind, hrest, pure, Except.pure]
      rw [hkey, hvalue, map_cons]

end Walks

section Operations

variable [BEq Key]

section

omit [Hashable Key]

theorem latest_eq_some (h : latest key es = some e) : ∃ l r, es = l ++ e :: r ∧
    (e.key == key) = true ∧ ∀ f ∈ r, (f.key == key) = false := by
  obtain ⟨hkey, as, bs, heq, hnone⟩ := find?_eq_some_iff_append.mp h
  refine ⟨bs.reverse, as.reverse, ?_, hkey, fun f hf => ?_⟩
  · have := congrArg reverse heq
    simpa using this
  · simpa using hnone f (mem_reverse.mp hf)

theorem latest_mem (h : latest key es = some e) : e ∈ es :=
  mem_reverse.mp (mem_of_find?_eq_some h)

theorem latest_eq_none (h : latest key es = none) : ∀ e ∈ es, (e.key == key) = false := by
  intro e he
  simpa using find?_eq_none.mp h e (mem_reverse.mpr he)

end

namespace Represents

variable (h : m.Represents es)

include h

section

omit [BEq Key]

theorem length_chainAt_le : (chainAt m.bucketCount i es).length ≤ addressSpace := by
  rw [chainAt, length_reverse, addresses, length_map]
  exact (length_filter_le _ _).trans (Nat.le_of_lt h.lt)

theorem exists_node_chainAt : ∀ x ∈ chainAt m.bucketCount i es, ∃ n, m.nodes x = some n := by
  intro x hx
  obtain ⟨e, he, -, rfl⟩ := mem_chainAt.mp hx
  exact h.exists_node (mem_map_of_mem he)

theorem bucketIndex_lt (key : Key) : m.bucketIndex key < m.bucketCount :=
  mod_lt _ h.count_pos

theorem insert_act (x : ℕ) (key : Key) (value : Value) (hx : m.Free x) :
    ∃ m', m.insert x key value = .ok m' ∧ m'.Represents (es ++ [⟨x, key, value⟩]) := by
  obtain ⟨m', hm', hins⟩ := insert_spec hx h.alive_tail
  exact ⟨m', hm', h.insert hx hins⟩

end

theorem hasKey_eq (he : e ∈ es) : m.hasKey key e.address = (e.key == key) := by
  rw [hasKey, (h.stored e).mpr he, Option.any_some]

variable [LawfulHashable Key]

theorem find?_chainAt (key : Key) :
    (chainAt m.bucketCount (m.bucketIndex key) es).find? (m.hasKey key) =
      (latest key es).map (·.address) := by
  rw [chainAt, addresses, ← map_reverse, find?_map, ← filter_reverse, latest]
  have hpred : ∀ e ∈ es.reverse, (decide ((hash e.key).toNat % m.bucketCount = m.bucketIndex key) &&
      (m.hasKey key ∘ fun e : Entry Key Value => e.address) e) = (e.key == key) := by
    intro e he
    rw [Function.comp_apply, h.hasKey_eq (mem_reverse.mp he)]
    by_cases hkey : (e.key == key) = true
    · rw [hkey, Bool.and_true, hash_eq hkey]
      exact decide_eq_true rfl
    · rw [Bool.eq_false_iff.mpr hkey, Bool.and_false]
  rw [← find?_congr hpred]
  simp

theorem findNode_eq (key : Key) : m.findNode key = .ok ((latest key es).map (·.address)) := by
  rw [findNode, findLoop_spec (h.chain _ (h.bucketIndex_lt key)) h.exists_node_chainAt
    h.length_chainAt_le, h.find?_chainAt]

theorem find_eq (key : Key) : m.find key = .ok ((latest key es).map (·.value)) := by
  rw [ConcurrentOrderedMap.find, h.findNode_eq]
  cases hlatest : latest key es with
  | none => rfl
  | some e =>
    have hpair := (h.stored e).mpr (latest_mem hlatest)
    obtain ⟨n, hn, -, hvalue⟩ := ConcurrentOrderedMap.exists_node hpair
    simp only [bind, Except.bind, Option.map_some, load_eq hn]
    rw [hvalue]
    rfl

theorem contains_eq (key : Key) : m.contains key = .ok (es.any fun e => e.key == key) := by
  rw [contains, h.findNode_eq]
  have hany : ((latest key es).map (·.address)).isSome = es.any fun e => e.key == key := by
    rw [Option.isSome_map, latest, isSome_find?, any_reverse]
  simp only [bind, Except.bind, hany]
  rfl

theorem remove_act (key : Key) : ∃ m',
    m.remove key = .ok (m', (latest key es).isSome) ∧
      m'.Represents ((latest key es).elim es fun e => removeEntry e es) := by
  have hchain := h.chain _ (h.bucketIndex_lt key)
  cases hlatest : latest key es with
  | none =>
    refine ⟨m, removeLoop_of_none hchain h.exists_node_chainAt (fun x hx => ?_)
      h.length_chainAt_le, h⟩
    obtain ⟨e, he, -, rfl⟩ := mem_chainAt.mp hx
    rw [h.hasKey_eq he]
    exact latest_eq_none hlatest e he
  | some e =>
    obtain ⟨l, r, rfl, hkey, hnone⟩ := latest_eq_some hlatest
    have hidx : m.bucketIndex key = m.bucketIndex e.key := by
      rw [bucketIndex, bucketIndex, hash_eq hkey]
    have hlive := h.exists_node_chainAt (i := m.bucketIndex e.key)
    have hlength := h.length_chainAt_le (i := m.bucketIndex e.key)
    rw [hidx] at hchain
    rw [chainAt_split] at hchain hlive hlength
    have hmem : ∀ f ∈ r, f ∈ l ++ e :: r := fun f hf => by simp [hf]
    have hnone' : ∀ y ∈ chainAt m.bucketCount (m.bucketIndex e.key) r, m.hasKey key y = false := by
      intro y hy
      obtain ⟨f, hf, -, rfl⟩ := mem_chainAt.mp hy
      rw [h.hasKey_eq (hmem f hf)]
      exact hnone f hf
    have hkey' : m.hasKey key e.address = true := by
      rw [h.hasKey_eq (by simp)]
      exact hkey
    have hself : m.Alive (some e.address) := h.alive fun x hx => by
      rw [addresses_split, ← Option.some.inj hx]
      exact mem_append_right _ mem_cons_self
    have hprev : m.Alive (chainAt m.bucketCount (m.bucketIndex e.key) r).getLast? :=
      fun x hx => hlive x (mem_append_left _ (mem_of_getLast? hx))
    have horderPrev : m.Alive (m.orderPrev e.address) := h.alive fun x hx => by
      rw [h.orderPrev_eq] at hx
      rw [addresses_split]
      exact mem_append_left _ (mem_of_getLast? hx)
    have horderNext : m.Alive (m.orderNext e.address) := h.alive fun x hx => by
      rw [h.orderNext_eq] at hx
      rw [addresses_split]
      exact mem_append_right _ (mem_cons_of_mem _ (mem_of_head? hx))
    have horderNe : m.orderPrev e.address ≠ some e.address := by
      have hnodup := h.nodup
      rw [addresses_split] at hnodup
      rw [h.orderPrev_eq]
      exact getLast_ne fun hl => (nodup_append.mp hnodup).2.2 _ hl _ mem_cons_self rfl
    obtain ⟨m', hm', hrem⟩ :=
      removeNode_spec (m.bucketIndex e.key) hself hprev horderPrev horderNext horderNe
    refine ⟨m', ?_, ?_⟩
    · rw [ConcurrentOrderedMap.remove, hidx]
      refine (removeLoop_of_some hchain hlive hnone' hkey' hlength).trans ?_
      rw [lastOr_none, hm']
      rfl
    · rw [Option.elim_some, removeEntry_split h.nodup]
      exact h.remove hrem

theorem insertOrAssign_present (x : ℕ) (value : Value) (hlatest : latest key es = some e) :
    ∃ m', m.insertOrAssign x key value = .ok (m', false) ∧
      m'.Represents (assignEntry e value es) := by
  have he := latest_mem hlatest
  obtain ⟨n, hn⟩ := h.exists_node (mem_map_of_mem he)
  refine ⟨_, ?_, h.assign he hn⟩
  rw [insertOrAssign, h.findNode_eq, hlatest]
  simp only [bind, Except.bind, Option.map_some, store_eq hn]
  rfl

theorem insertOrAssign_absent (x : ℕ) (value : Value) (hlatest : latest key es = none) :
    m.insertOrAssign x key value = (m.insert x key value).map fun m => (m, true) := by
  rw [insertOrAssign, h.findNode_eq, hlatest]
  simp only [Except.bind, Option.map_none]
  by_cases hx : m.Free x
  · have hn : (m.put x ⟨key, value, none, none, none⟩).nodes x =
      some ⟨key, value, none, none, none⟩ := update_self _ _ _
    rw [ConcurrentOrderedMap.insert, newNode_eq hx]
    simp only [bind, Except.bind, store_eq hn, bucketPushFront_eq hn, bucketIndex_put]
    generalize orderListAppend _ x = o
    cases o with
    | error stop => rfl
    | ok m' => rfl
  · rw [newNode_error hx, insert_error hx]
    rfl

end Represents

def Act.address (es : List (Entry Key Value)) : Act Key Value → Option ℕ
  | .insert address _ _ => some address
  | .insertOrAssign address key _ => if (latest key es).isSome then none else some address
  | .remove _ => none
  | .clear => none

variable [LawfulHashable Key]

theorem Represents.perform (h : m.Represents es) (a : Act Key Value) :
    (∃ x, a.address es = some x ∧ ¬ m.Free x ∧ m.perform a = .error .badAddress) ∨
      ∃ m', m.perform a = .ok (m', (a.result es).2) ∧ m'.Represents (a.result es).1 := by
  cases a with
  | insert x key value =>
    by_cases hx : m.Free x
    · obtain ⟨m', hm', hrep⟩ := h.insert_act x key value hx
      exact .inr ⟨m', by rw [ConcurrentOrderedMap.perform, hm']; rfl, hrep⟩
    · refine .inl ⟨x, rfl, hx, ?_⟩
      rw [ConcurrentOrderedMap.perform, insert_error hx]
      rfl
  | insertOrAssign x key value =>
    cases hlatest : latest key es with
    | some e =>
      obtain ⟨m', hm', hrep⟩ := h.insertOrAssign_present x value hlatest
      refine .inr ⟨m', ?_, ?_⟩
      · rw [ConcurrentOrderedMap.perform, hm', Act.result, hlatest]
        rfl
      · rw [Act.result, hlatest]
        exact hrep
    | none =>
      have heq := h.insertOrAssign_absent x value hlatest
      by_cases hx : m.Free x
      · obtain ⟨m', hm', hrep⟩ := h.insert_act x key value hx
        refine .inr ⟨m', ?_, ?_⟩
        · rw [ConcurrentOrderedMap.perform, heq, hm', Act.result, hlatest]
          rfl
        · rw [Act.result, hlatest]
          exact hrep
      · refine .inl ⟨x, ?_, hx, ?_⟩
        · rw [Act.address, hlatest]
          rfl
        · rw [ConcurrentOrderedMap.perform, heq, insert_error hx]
          rfl
  | remove key =>
    obtain ⟨m', hm', hrep⟩ := h.remove_act key
    refine .inr ⟨m', ?_, ?_⟩
    · rw [ConcurrentOrderedMap.perform, hm', Act.result]
      cases latest key es with
      | none => rfl
      | some e => rfl
    · rw [Act.result]
      cases hlatest : latest key es with
      | none =>
        rw [hlatest] at hrep
        exact hrep
      | some e =>
        rw [hlatest] at hrep
        exact hrep
  | clear =>
    obtain ⟨m', hm', hrep⟩ := h.clear
    exact .inr ⟨m', by rw [ConcurrentOrderedMap.perform, hm']; rfl, hrep⟩

theorem Represents.run (h : m.Represents es) (acts : List (Act Key Value)) :
    m.run acts = .error .badAddress ∨
      ∃ m', m.run acts = .ok (m', (results es acts).2) ∧ m'.Represents (results es acts).1 := by
  induction acts generalizing m es with
  | nil => exact .inr ⟨m, rfl, h⟩
  | cons a rest ih =>
    rw [ConcurrentOrderedMap.run]
    obtain ⟨x, -, -, hstop⟩ | ⟨m₁, hm₁, hrep⟩ := h.perform a
    · exact .inl (by rw [hstop]; rfl)
    · obtain hstop | ⟨m₂, hm₂, hrep₂⟩ := ih hrep
      · refine .inl ?_
        simp only [hm₁, bind, Except.bind, hstop]
      · refine .inr ⟨m₂, ?_, hrep₂⟩
        simp only [hm₁, bind, Except.bind, hm₂]
        rfl

omit [BEq Key] [LawfulHashable Key] in
theorem length_eq_sum {count : ℕ} (hcount : 0 < count) (es : List (Entry Key Value)) :
    es.length = ∑ i ∈ Finset.range count, (chainAt count i es).length := by
  induction es with
  | nil => simp [chainAt, addresses]
  | cons e es ih =>
    have hcons : ∀ i, (chainAt count i (e :: es)).length =
        (chainAt count i es).length + if (hash e.key).toNat % count = i then 1 else 0 := by
      intro i
      split
      · next hi =>
        subst hi
        rw [chainAt_cons_self, length_append, length_singleton]
      · next hi => rw [chainAt_cons_ne hi, Nat.add_zero]
    rw [Finset.sum_congr rfl fun i _ => hcons i, Finset.sum_add_distrib, ← ih, Finset.sum_ite_eq,
      if_pos (Finset.mem_range.mpr (mod_lt _ hcount)), length_cons]

/-- The nodes of `m` are the entries `es`, each in one bucket and at one place in order. -/
structure Sound (m : ConcurrentOrderedMap Key Value) (es : List (Entry Key Value)) : Prop where
  represents : m.Represents es
  bucket : ∀ x n, m.nodes x = some n → ∀ i < m.bucketCount,
    Reach m.next (m.buckets i) x ↔ i = m.bucketIndex n.key
  nodup : ∀ i, (chainAt m.bucketCount i es).Nodup ∧ (addresses es).Nodup
  neighbours : ∀ x y, (m.nodes x).isSome → (m.nodes y).isSome →
    (m.orderNext x = some y ↔ m.orderPrev y = some x)
  count : m.size = ∑ i ∈ Finset.range m.bucketCount, (chainAt m.bucketCount i es).length
  find : ∀ key, m.find key = .ok ((latest key es).map (·.value))
  contains : ∀ key, m.contains key = .ok (es.any fun e => e.key == key)
  inOrder : m.forEachInOrder = .ok (es.map fun e => (e.key, e.value))

theorem Represents.sound (h : m.Represents es) : m.Sound es := by
  have hmem : ∀ x, (m.nodes x).isSome → x ∈ addresses es := by
    intro x hx
    obtain ⟨n, hn⟩ := Option.isSome_iff_exists.mp hx
    exact h.mem_iff.mpr (exists_node_iff.mp ⟨n, hn⟩)
  refine ⟨h, ?_, ?_, ?_, ?_, h.find_eq, h.contains_eq, ?_⟩
  · intro x n hn i hi
    obtain ⟨e, he, rfl⟩ := mem_addresses.mp (hmem x (by rw [hn]; rfl))
    have hpair := pair_eq hn
    rw [(h.stored e).mpr he] at hpair
    have hkey : e.key = n.key := (Prod.ext_iff.mp (Option.some.inj hpair)).1
    rw [(h.chain i hi).reach_iff, mem_chainAt, ← hkey]
    constructor
    · rintro ⟨f, hf, rfl, heq⟩
      rw [h.eq_of_address hf he heq]
      rfl
    · rintro rfl
      exact ⟨e, he, rfl, rfl⟩
  · intro i
    refine ⟨?_, h.nodup⟩
    rw [chainAt, nodup_reverse]
    exact (filter_sublist.map _).nodup h.nodup
  · intro x y hx hy
    exact h.order.next_eq_some_iff (hmem x hx) (hmem y hy)
  · rw [h.size]
    exact length_eq_sum h.count_pos es
  · exact orderLoop_spec h.order.segment (fun e he => (h.stored e).mpr he) (Nat.le_of_lt h.lt)

/-- Every run whose addresses are free leaves the entries that its steps define, and has
given their replies; from there every step whose address is free goes on. -/
theorem operations_sound {count : ℕ} (hcount : 0 < count) (acts : List (Act Key Value)) :
    (construct count).run acts = .error .badAddress ∨
      ∃ m, (construct count).run acts = .ok (m, (results [] acts).2) ∧ m.Sound (results [] acts).1 ∧
        ∀ a : Act Key Value, (∀ x, a.address (results [] acts).1 = some x →
            0 < x ∧ x < addressSpace ∧ (m.nodes x).isNone) →
          ∃ m', m.perform a = .ok (m', (a.result (results [] acts).1).2) := by
  obtain hstop | ⟨m, hm, hrep⟩ := (represents_construct hcount).run acts
  · exact .inl hstop
  · refine .inr ⟨m, hm, hrep.sound, fun a ha => ?_⟩
    obtain ⟨x, hx, hfree, -⟩ | ⟨m', hm', -⟩ := hrep.perform a
    · obtain ⟨hpos, hlt, hnone⟩ := ha x hx
      refine absurd ⟨hpos, hlt, ?_⟩ hfree
      rw [pair, Option.isNone_iff_eq_none.mp hnone, Option.map_none]
    · exact ⟨m', hm'⟩

end Operations

def smallRun : List (Act ℕ ℕ) :=
  [.insert 8 1 10, .insert 16 3 30, .insert 24 1 11, .insertOrAssign 32 1 12, .remove 1,
    .insertOrAssign 24 5 50]

theorem operations_sound_small :
    ∃ m, (construct 2).run smallRun = .ok (m, [none, none, none, some false, some true, some true]) ∧
      m.Sound [⟨8, 1, 10⟩, ⟨16, 3, 30⟩, ⟨24, 5, 50⟩] := by
  have hgoes : (construct 2).run smallRun ≠ .error .badAddress := fun h =>
    absurd (congrArg Except.toBool h) (by decide +kernel)
  obtain ⟨m, hm, hsound, -⟩ :=
    (operations_sound (by decide : 0 < 2) smallRun).resolve_left hgoes
  exact ⟨m, hm, hsound⟩

end Equilibrium.ConcurrentOrderedMap
