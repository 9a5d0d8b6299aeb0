import Equilibrium.Containers.LockFreeOrderedMapPlaces

/-! What one access does to the memory, and that it keeps the chains, the order list and
the nodes that the other threads insert. -/

namespace Equilibrium.LockFreeOrderedHashMap

open Library.LinkedChain List

variable {Thread Key Value : Type} [Hashable Key]

/-- The effects of the accesses of a thread at `pc`. -/
inductive Effect (s : State Thread Key Value) (pc : Pc Key Value) :
    Map Key Value → List ℕ → List ℕ → Prop where
  | read : Effect s pc s.map s.published s.appended
  | lists (staging allNodes : List ℕ) (hs : ∀ x ∈ staging, x ∈ s.published)
      (ha : ∀ x ∈ allNodes, x ∈ s.published) :
    Effect s pc { s.map with staging := staging, allNodes := allNodes } s.published s.appended
  | construct (key : Key) (value : Value) :
    Effect s pc (s.map.newNode key value) s.published s.appended
  | discard (key : Key) (x : ℕ) (hown : pc.own = some x) (hx : s.Pending key x) :
    Effect s pc (s.map.deleteNode x) s.published s.appended
  | storeNext (key : Key) (x : ℕ) (p : Option ℕ) (hown : pc.own = some x)
      (hx : s.Pending key x) :
    Effect s pc (s.map.modify x fun n => { n with bucketNext := p }) s.published s.appended
  | publish (key : Key) (x : ℕ) (hown : pc.own = some x) (hx : s.Pending key x)
      (hnext : s.map.bucketNext x = s.map.buckets (s.map.hashKey key)) :
    Effect s pc (s.map.storeBucket (s.map.hashKey key) (some x)) (s.published ++ [x]) s.appended
  | giveUp (key : Key) (x : ℕ) (hpc : pc = .giveUp key x) (hx : s.Owned key x) :
    Effect s pc (s.map.modify x fun n => { n with isDeleted := true, orderSwept := true })
      s.published s.appended
  | mark (key : Key) (x : ℕ) (hpc : pc = .mark key x) (hx : x ∈ s.published)
      (hkey : s.map.Keyed key x) (hlive : ¬ s.map.Marked x) :
    Effect s pc (s.map.modify x fun n => { n with isDeleted := true }) s.published s.appended
  | splice (after : Resume Key Value) (prev : Link) (x : ℕ) (q : Option ℕ)
      (hpc : pc = .unlinkExchange after x prev q) (hx : x ∈ s.published)
      (hs : Spliceable s.map s.published prev x q) :
    Effect s pc (s.map.storeLink prev q) s.published s.appended
  | sweep (caller : Caller Key) (i : ℕ) (prev : Link) (x : ℕ) (q : Option ℕ)
      (hpc : pc = .gc caller (.sweepExchange i prev x q)) (hx : x ∈ s.published)
      (hs : Spliceable s.map s.published prev x q) :
    Effect s pc ((s.map.storeLink prev q).modify x fun n => { n with bucketSwept := true })
      s.published s.appended
  | reset (key : Key) (x : ℕ) (hown : pc.own = some x) (hx : s.Owned key x) :
    Effect s pc (s.map.modify x fun n => { n with orderNext := none }) s.published s.appended
  | first (key : Key) (x : ℕ) (hpc : pc = .exchangeHead key x) (hx : s.Owned key x)
      (hno : s.NoOlder key x) (hhead : s.map.orderHead = none) :
    Effect s pc { s.map with orderHead := some x } s.published (s.appended ++ [x])
  | append (key : Key) (x tail : ℕ) (hpc : pc = .append key x tail) (hx : s.Owned key x)
      (hno : s.NoOlder key x) (htail : s.Reached tail) (hnext : s.map.orderNext tail = none) :
    Effect s pc (s.map.modify tail fun n => { n with orderNext := some x }) s.published
      (s.appended ++ [x])
  | setTail (x : ℕ) (hlast : s.appended.getLast? = some x) :
    Effect s pc { s.map with orderTail := some x } s.published s.appended
  | orderSplice (caller : Caller Key) (prev : Option ℕ) (x y : ℕ)
      (hpc : pc = .gc caller (.orderExchange prev x y)) (hprev : s.Linked prev)
      (hx : s.Linked (some x)) (hmark : s.map.Marked x) (hlink : s.map.orderLink prev = some x)
      (hnext : s.map.orderNext x = some y) :
    Effect s pc ((s.map.storeOrderLink prev (some y)).modify x
      fun n => { n with orderSwept := true }) s.published s.appended
  | stamp (x : ℕ) (epoch : ℤ) (hx : x ∈ s.published) :
    Effect s pc (s.map.modify x fun n =>
        if n.bucketSwept ∧ n.orderSwept ∧ n.retiredEpoch < 0 then { n with retiredEpoch := epoch }
        else n) s.published s.appended
  | free (x : ℕ) (safe : ℤ) (hx : x ∈ s.published)
      (hretired : (s.map.nodes x).any
        fun n => decide (0 ≤ n.retiredEpoch ∧ n.retiredEpoch + 2 ≤ safe)) :
    Effect s pc (s.map.deleteNode x) s.published s.appended

/-- A step from a thread at `pc` is sound for the memory and the other threads. -/
structure Sound (s s' : State Thread Key Value) (pc : Pc Key Value) : Prop where
  mem : Mem s'
  frame : Frame s s'
  spares : ∀ x, (∃ n, s.map.nodes x = some n) → pc.own ≠ some x → Spares s s' x
  order : pc.collects = false → KeepsOrder s s'

section Sound

variable {s s' s'' : State Thread Key Value} {pc : Pc Key Value}

section

omit [Hashable Key]

theorem Spares.trans {x : ℕ} (h : Spares s s' x) (h' : Spares s' s'' x) : Spares s s'' x where
  pending := fun hx => by
    obtain ⟨hx', heq⟩ := h.pending hx
    obtain ⟨hx'', heq'⟩ := h'.pending hx'
    exact ⟨hx'', heq'.trans heq⟩
  owned := fun hx => by
    obtain ⟨hx', hnode⟩ := h.owned hx
    obtain ⟨hx'', hnode'⟩ := h'.owned hx'
    refine ⟨hx'', fun n hn => ?_⟩
    obtain ⟨n', hn', hnext, hswept⟩ := hnode n hn
    obtain ⟨n'', hn'', hnext', hswept'⟩ := hnode' n' hn'
    exact ⟨n'', hn'', hnext'.trans hnext, hswept'.trans hswept⟩

theorem KeepsOrder.trans (hf : s.appended <+: s'.appended) (h : KeepsOrder s s')
    (h' : KeepsOrder s' s'') : KeepsOrder s s'' where
  next := fun x hx y hy => h'.next x (hf.subset hx) y (h.next x hx y hy)
  reach := fun x hx hr => h'.reach x (hf.subset hx) (h.reach x hx hr)

end

theorem Frame.trans (hm : Mem s') (h : Frame s s') (h' : Frame s' s'') : Frame s s'' where
  chain := h.chain.trans h'.chain hm.node
  appended := h.appended.trans h'.appended
  tail := fun t ht => by
    obtain ⟨u, hu, hle⟩ := h'.tail t (h.reached ht)
    exact ⟨u, hu, hle⟩

theorem Sound.trans (h : Sound s s' pc) (h' : Sound s' s'' pc) : Sound s s'' pc where
  mem := h'.mem
  frame := h.frame.trans h.mem h'.frame
  spares := fun x hx hown => by
    obtain ⟨n, hn⟩ := hx
    obtain ⟨n', hn', -⟩ := h.frame.chain.node x n hn
    exact (h.spares x ⟨n, hn⟩ hown).trans (h'.spares x ⟨n', hn'⟩ hown)
  order := fun hc => .trans h.frame.appended (h.order hc) (h'.order hc)

omit [Hashable Key] in
theorem keepsOrder_of_next (hhead : ∀ x, s.map.orderHead = some x → s'.map.orderHead = some x)
    (hnext : ∀ x y, s.map.orderNext x = some y → s'.map.orderNext x = some y) :
    KeepsOrder s s' where
  next := fun x _ y hy => hnext x y hy
  reach := fun x _ hx => by
    cases hp : s.map.orderHead with
    | none =>
      rw [hp] at hx
      exact absurd hx not_reach_none
    | some h =>
      rw [hhead h hp, ← hp]
      exact hx.keep fun a b _ hab => hnext a b hab

theorem Sound.of_memory (h : Sound s { s with
    map := s'.map, published := s'.published, appended := s'.appended } pc) : Sound s s' pc where
  mem := ⟨h.mem.bounded, h.mem.node, h.mem.published, h.mem.buckets, h.mem.order,
    h.mem.appended, h.mem.staging, h.mem.allNodes⟩
  frame := ⟨h.frame.chain, h.frame.appended, h.frame.tail⟩
  spares := fun x hx hown => ⟨(h.spares x hx hown).pending, (h.spares x hx hown).owned⟩
  order := fun hc => ⟨(h.order hc).next, (h.order hc).reach⟩

variable {m : Map Key Value}

theorem Mem.retained (hm : Mem s) (hr : Retains s.map m) :
    ∀ x ∈ s.published, ∃ n, m.nodes x = some n := fun x hx => by
  obtain ⟨n, hn⟩ := hm.node x hx
  obtain ⟨n', hn', -⟩ := hr.node x n hn
  exact ⟨n', hn'⟩

theorem Mem.bounded_modify (hm : Mem s) {x y : ℕ} {f : Node Key Value → Node Key Value}
    {n : Node Key Value} (hn : (s.map.modify x f).nodes y = some n) : y < s.map.allocated := by
  rw [Map.nodes_modify] at hn
  obtain ⟨n', hn', -⟩ := Option.map_eq_some_iff.mp hn
  exact hm.bounded y n' hn'

omit [Hashable Key] in
theorem Map.nodes_modify_ne (m : Map Key Value) {x y : ℕ} (hne : y ≠ x)
    (f : Node Key Value → Node Key Value) : (m.modify x f).nodes y = m.nodes y := by
  rw [Map.nodes_modify]
  cases m.nodes y <;> simp [hne]

section

variable (hm : Mem s)
include hm

theorem sound_of_next (hr : Retains s.map m)
    (hbounded : ∀ x n, m.nodes x = some n → x < m.allocated) (hbuckets : m.buckets = s.map.buckets)
    (hhead : m.orderHead = s.map.orderHead) (htail : m.orderTail = s.map.orderTail)
    (hnext : ∀ x ∈ s.published, m.bucketNext x = s.map.bucketNext x)
    (horder : ∀ x y, s.map.orderNext x = some y → m.orderNext x = some y)
    (hlast : ∀ x ∈ s.appended, m.orderNext x = s.map.orderNext x)
    (hstaging : ∀ x ∈ m.staging, x ∈ s.published) (hall : ∀ x ∈ m.allNodes, x ∈ s.published)
    (hspare : ∀ x, (∃ n, s.map.nodes x = some n) → pc.own ≠ some x →
      Spares s { s with map := m } x) : Sound s { s with map := m } pc where
  mem := ⟨hbounded, hm.retained hr, hm.published,
    hm.buckets.of_next hr hm.node hbuckets hnext,
    hm.order.of_next hr (fun x hx => hm.node x (hm.appended x hx)) hhead htail hlast,
    hm.appended, hstaging, hall⟩
  frame := ⟨chainFrame_of_next hr hnext hm.buckets, prefix_refl _,
    fun _ ht => htail.symm ▸ ht.2⟩
  spares := hspare
  order := fun _ => keepsOrder_of_next (fun _ hx => hhead.trans hx) horder

theorem sound_modify {x : ℕ} {f : Node Key Value → Node Key Value}
    (hf : ∀ n, (f n).key = n.key ∧ (f n).value = n.value ∧
      (n.isDeleted = true → (f n).isDeleted = true))
    (hnext : x ∈ s.published → ∀ n, (f n).bucketNext = n.bucketNext)
    (horder : ∀ n, s.map.nodes x = some n → (f n).orderNext = n.orderNext)
    (hspare : pc.own = some x ∨ x ∈ s.published ∧
      (x ∉ s.appended → ∀ n, (f n).orderSwept = n.orderSwept)) :
    Sound s { s with map := s.map.modify x f } pc := by
  have horderNext : ∀ y, (s.map.modify x f).orderNext y = s.map.orderNext y := fun y => by
    by_cases hy : y = x
    · subst hy
      rw [Map.orderNext, Map.orderNext, Map.nodes_modify]
      cases hn : s.map.nodes y with
      | none => rfl
      | some n => simp [horder n hn]
    · exact Map.orderNext_congr (s.map.nodes_modify_ne hy f)
  refine sound_of_next hm (retains_modify hf) (fun y n hn => hm.bounded_modify hn) rfl rfl rfl
    (fun y hy => ?_) (fun y z hz => (horderNext y).trans hz) (fun y _ => horderNext y) hm.staging
    hm.allNodes (fun y hy hown => ⟨fun hmem => ⟨hmem, ?_⟩, fun hmem => ⟨hmem, fun n hn => ?_⟩⟩)
  · by_cases hyx : y = x
    · subst hyx
      rw [Map.bucketNext, Map.bucketNext, Map.nodes_modify]
      cases s.map.nodes y <;> simp [hnext hy]
    · exact Map.bucketNext_congr (s.map.nodes_modify_ne hyx f)
  · refine s.map.nodes_modify_ne ?_ f
    rintro rfl
    rcases hspare with h | h
    · exact hown h
    · exact hmem h.1
  · by_cases hyx : y = x
    · subst hyx
      obtain ⟨-, hswept⟩ := hspare.resolve_left hown
      exact ⟨f n, by rw [Map.nodes_modify, hn]; simp, horder n hn, hswept hmem n⟩
    · exact ⟨n, (s.map.nodes_modify_ne hyx f).trans hn, rfl, rfl⟩

theorem sound_lists {staging allNodes : List ℕ} (hs : ∀ x ∈ staging, x ∈ s.published)
    (ha : ∀ x ∈ allNodes, x ∈ s.published) :
    Sound s { s with map := { s.map with staging := staging, allNodes := allNodes } } pc :=
  sound_of_next hm ⟨rfl, fun _ n hn => ⟨n, hn, rfl, rfl, id⟩⟩ hm.bounded rfl rfl rfl
    (fun _ _ => rfl) (fun _ _ hz => hz) (fun _ _ => rfl) hs ha fun _ _ _ =>
      ⟨fun hmem => ⟨hmem, rfl⟩, fun hmem => ⟨hmem, fun n hn => ⟨n, hn, rfl, rfl⟩⟩⟩

theorem sound_construct (key : Key) (value : Value) :
    Sound s { s with map := s.map.newNode key value } pc := by
  have hother : ∀ y n, s.map.nodes y = some n →
      (s.map.newNode key value).nodes y = s.map.nodes y := fun y n hn =>
    Function.update_of_ne (Nat.ne_of_lt (hm.bounded y n hn)) _ _
  have hpublished : ∀ y ∈ s.published,
      (s.map.newNode key value).nodes y = s.map.nodes y := fun y hy => by
    obtain ⟨n, hn⟩ := hm.node y hy
    exact hother y n hn
  refine sound_of_next hm ⟨rfl, fun y n hn => ⟨n, (hother y n hn).trans hn, rfl, rfl, id⟩⟩
    (fun y n hn => ?_) rfl rfl rfl (fun y hy => Map.bucketNext_congr (hpublished y hy))
    (fun y z hz => ?_) (fun y hy => Map.orderNext_congr (hpublished y (hm.appended y hy)))
    hm.staging hm.allNodes (fun y hy _ => ?_)
  · by_cases hy : y = s.map.allocated
    · rw [hy]
      exact Nat.lt_succ_self _
    · rw [Map.newNode_nodes, Function.update_of_ne hy] at hn
      exact Nat.lt_succ_of_lt (hm.bounded y n hn)
  · cases hn : s.map.nodes y with
    | none =>
      rw [Map.orderNext, hn] at hz
      cases hz
    | some n =>
      rw [Map.orderNext_congr (hother y n hn), hz]
  · obtain ⟨n, hn⟩ := hy
    exact ⟨fun hmem => ⟨hmem, hother y n hn⟩, fun hmem => ⟨hmem, fun n' hn' =>
      ⟨n', (hother y n hn).trans hn', rfl, rfl⟩⟩⟩

theorem sound_publish {key : Key} {x : ℕ} (hown : pc.own = some x) (hx : s.Pending key x)
    (hnext : s.map.bucketNext x = s.map.buckets (s.map.hashKey key)) : Sound s { s with
      map := s.map.storeBucket (s.map.hashKey key) (some x)
      published := s.published ++ [x] } pc := by
  obtain ⟨hnew, v, p, hn⟩ := hx
  have hr : Retains s.map (s.map.storeBucket (s.map.hashKey key) (some x)) :=
    ⟨rfl, fun _ n hn => ⟨n, hn, rfl, rfl, id⟩⟩
  refine ⟨⟨hm.bounded, fun y hy => ?_, ?_, ?_, ?_, fun y hy => ?_, fun y hy => ?_, fun y hy => ?_⟩,
    ⟨chainFrame_publish _ _, prefix_refl _, fun t ht => ht.2⟩,
    fun y _ hy => ⟨fun hmem => ⟨?_, rfl⟩, fun hmem => ⟨hmem, fun n hn => ⟨n, hn, rfl, rfl⟩⟩⟩,
    fun _ => keepsOrder_of_next (fun _ hy => hy) fun _ _ hz => hz⟩
  · rcases mem_append.mp hy with hy | hy
    · exact hm.node y hy
    · rw [mem_singleton.mp hy]
      exact ⟨_, hn⟩
  · refine nodup_append.mpr
      ⟨hm.published, nodup_singleton x, fun a ha b hb hab => hnew ?_⟩
    rw [← mem_singleton.mp hb, ← hab]
    exact ha
  · exact hm.buckets.publish hm.node hnew hn rfl ((Map.bucketNext_node hn).symm.trans hnext)
  · exact hm.order.of_next hr (fun y hy => hm.node y (hm.appended y hy)) rfl rfl fun _ _ => rfl
  · exact mem_append_left _ (hm.appended y hy)
  · exact mem_append_left _ (hm.staging y hy)
  · exact mem_append_left _ (hm.allNodes y hy)
  · simp only [mem_append, mem_singleton, not_or]
    refine ⟨hmem, ?_⟩
    rintro rfl
    exact hy hown

theorem sound_splice {prev : Link} {x : ℕ} {q : Option ℕ} (hx : x ∈ s.published)
    (hs : Spliceable s.map s.published prev x q) :
    Sound s { s with map := s.map.storeLink prev q } pc := by
  obtain ⟨n, hn⟩ := hm.node x hx
  have hin : In s.map s.published (s.map.hashKey n.key) x := ⟨hx, n, hn, rfl⟩
  have hstored : ∀ y, (s.map.storeLink prev q).nodes y = s.map.nodes y ∨ y ∈ s.published ∧
      (s.map.storeLink prev q).nodes y =
        (s.map.nodes y).map fun n => { n with bucketNext := q } := by
    intro y
    cases prev with
    | bucket i => exact .inl rfl
    | node w =>
      by_cases hy : y = w
      · subst hy
        refine .inr ⟨hs.field y rfl, ?_⟩
        rw [Map.storeLink, Map.nodes_modify]
        simp
      · exact .inl (s.map.nodes_modify_ne hy _)
  have horderNext : ∀ y, (s.map.storeLink prev q).orderNext y = s.map.orderNext y := fun y => by
    rcases hstored y with h | ⟨-, h⟩
    · exact Map.orderNext_congr h
    · rw [Map.orderNext, Map.orderNext, h]
      cases s.map.nodes y <;> rfl
  obtain ⟨halloc, hhead, htail, hstaging, hall⟩ :
      (s.map.storeLink prev q).allocated = s.map.allocated ∧
      (s.map.storeLink prev q).orderHead = s.map.orderHead ∧
      (s.map.storeLink prev q).orderTail = s.map.orderTail ∧
      (s.map.storeLink prev q).staging = s.map.staging ∧
      (s.map.storeLink prev q).allNodes = s.map.allNodes := by
    cases prev <;> exact ⟨rfl, rfl, rfl, rfl, rfl⟩
  refine ⟨⟨fun y n' hn' => ?_, hm.retained hs.retains, hm.published,
      hs.buckets hm.buckets hm.node hin, ?_, hm.appended, hstaging ▸ hm.staging,
      hall ▸ hm.allNodes⟩,
    ⟨hs.chainFrame hm.buckets hm.node hin, prefix_refl _, fun _ ht => htail.symm ▸ ht.2⟩,
    fun y _ hy => ⟨fun hmem => ⟨hmem, ?_⟩, fun hmem => ⟨hmem, fun n hn => ?_⟩⟩,
    fun _ => keepsOrder_of_next (fun y hy => hhead.trans hy) fun y z hz => (horderNext y).trans hz⟩
  · rw [halloc]
    rcases hstored y with h | ⟨-, h⟩
    · exact hm.bounded y n' (h ▸ hn')
    · rw [h] at hn'
      obtain ⟨n, hn, -⟩ := Option.map_eq_some_iff.mp hn'
      exact hm.bounded y n hn
  · exact hm.order.of_next hs.retains (fun y hy => hm.node y (hm.appended y hy)) hhead htail
      fun y _ => horderNext y
  · rcases hstored y with h | h
    · exact h
    · exact absurd h.1 hmem
  · rcases hstored y with h | ⟨-, h⟩
    · exact ⟨n, h.trans hn, rfl, rfl⟩
    · rw [hn] at h
      exact ⟨_, h, rfl, rfl⟩

theorem sound_of_order {appended : List ℕ} (happ : appended = s.appended ∨
      ∃ x, x ∈ s.published ∧ pc.own = some x ∧ appended = s.appended ++ [x]) (hr : Retains s.map m)
    (hbounded : ∀ x n, m.nodes x = some n → x < m.allocated) (hbuckets : m.buckets = s.map.buckets)
    (hnext : ∀ x, m.bucketNext x = s.map.bucketNext x) (hstaging : m.staging = s.map.staging)
    (hall : m.allNodes = s.map.allNodes) (horder : OrderList m appended)
    (htail : ∀ t, s.Reached t → ∃ u, m.orderTail = some u ∧ place appended u ≤ place appended t)
    (hspare : ∀ x ∉ s.appended, pc.own ≠ some x → m.nodes x = s.map.nodes x)
    (hkeeps : pc.collects = false → KeepsOrder s { s with map := m, appended := appended }) :
    Sound s { s with map := m, appended := appended } pc := by
  have hmem : ∀ y, y ∈ appended → y ∈ s.appended ∨ pc.own = some y ∧ y ∈ s.published := by
    intro y hy
    rcases happ with rfl | ⟨x, hx, hown, rfl⟩
    · exact .inl hy
    · rw [mem_append, mem_singleton] at hy
      rcases hy with hy | rfl
      · exact .inl hy
      · exact .inr ⟨hown, hx⟩
  refine ⟨⟨hbounded, hm.retained hr, hm.published,
      hm.buckets.of_next hr hm.node hbuckets fun y _ => hnext y, horder,
      fun y hy => (hmem y hy).elim (hm.appended y) And.right, hstaging ▸ hm.staging,
      hall ▸ hm.allNodes⟩,
    ⟨chainFrame_of_next hr (fun y _ => hnext y) hm.buckets, ?_, htail⟩,
    fun y _ hy => ⟨fun hno => ⟨hno, hspare y (fun h => hno (hm.appended y h)) hy⟩,
      fun hno => ⟨fun h => ?_, fun n hn => ⟨n, (hspare y hno hy).trans hn, rfl, rfl⟩⟩⟩, hkeeps⟩
  · rcases happ with rfl | ⟨x, -, -, rfl⟩
    · exact prefix_refl _
    · exact prefix_append _ _
  · rcases hmem y h with h | ⟨h, -⟩
    · exact hno h
    · exact hy h

theorem sound_first {key : Key} {x : ℕ} (hown : pc.own = some x) (hx : s.Owned key x)
    (hhead : s.map.orderHead = none) : Sound s { s with
      map := { s.map with orderHead := some x }, appended := s.appended ++ [x] } pc := by
  obtain ⟨hmem, hno, n, hn, -, hnext, -⟩ := hx
  have hempty := hm.order.empty hhead
  refine sound_of_order hm (.inr ⟨x, hmem, hown, rfl⟩) ⟨rfl, fun _ n hn => ⟨n, hn, rfl, rfl, id⟩⟩
    hm.bounded rfl (fun _ => rfl) rfl rfl
    (hm.order.first hhead ((Map.orderNext_node hn).trans hnext)) (fun t ht => ?_) (fun _ _ _ => rfl)
    fun _ => keepsOrder_of_next (fun y hy => absurd (hhead.symm.trans hy) nofun) fun _ _ hz => hz
  have hin := ht.1
  rw [hempty] at hin
  cases hin

theorem sound_append {key : Key} {x tail : ℕ} (hown : pc.own = some x) (hx : s.Owned key x)
    (htail : s.Reached tail) (hnone : s.map.orderNext tail = none) : Sound s { s with
      map := s.map.modify tail fun n => { n with orderNext := some x }
      appended := s.appended ++ [x] } pc := by
  obtain ⟨hmem, hno, n, hn, -, hnext, -⟩ := hx
  refine sound_of_order hm (.inr ⟨x, hmem, hown, rfl⟩) (retains_modify fun n => ⟨rfl, rfl, id⟩)
    (fun y n hn => hm.bounded_modify hn) rfl (congrFun (Map.bucketNext_modify fun n => rfl)) rfl rfl
    ?_ (fun t ht => ?_) (fun y hy _ => s.map.nodes_modify_ne ?_ _)
    fun _ => keepsOrder_of_next (fun _ hy => hy) fun y z hz => ?_
  · exact hm.order.append htail.1 (hm.node tail (hm.appended tail htail.1)) hnone htail.2 hno
      ((Map.orderNext_node hn).trans hnext)
  · obtain ⟨hmemt, u, hu, hle⟩ := ht
    refine ⟨u, hu, ?_⟩
    rw [place_append hmemt, place_append (hm.order.tail u hu).1]
    exact hle
  · rintro rfl
    exact hy htail.1
  · refine (Map.orderNext_congr (s.map.nodes_modify_ne ?_ _)).trans hz
    rintro rfl
    cases hnone.symm.trans hz

theorem sound_setTail {x : ℕ} (hlast : s.appended.getLast? = some x) :
    Sound s { s with map := { s.map with orderTail := some x } } pc :=
  sound_of_order hm (.inl rfl) ⟨rfl, fun _ n hn => ⟨n, hn, rfl, rfl, id⟩⟩ hm.bounded rfl
    (fun _ => rfl) rfl rfl (hm.order.setTail hlast)
    (fun _ ht => ⟨x, rfl, hm.order.place_last_le ht.1 hlast⟩) (fun _ _ _ => rfl)
    fun _ => keepsOrder_of_next (fun _ hy => hy) fun _ _ hz => hz

theorem sound_orderSplice {prev : Option ℕ} {x y : ℕ} (hc : pc.collects = true)
    (hprev : s.Linked prev) (hx : x ∈ s.appended) (hmark : s.map.Marked x)
    (hlink : s.map.orderLink prev = some x) (hnext : s.map.orderNext x = some y) :
    Sound s { s with map := s.map.storeOrderLink prev (some y) } pc := by
  have horder := hm.order.splice hx (fun x hx => hm.node x (hm.appended x hx)) hmark
    (fun a ha => (hprev a ha).1) hlink hnext
  have hkeeps : pc.collects = false → KeepsOrder s { s with
      map := s.map.storeOrderLink prev (some y) } := fun h => Bool.noConfusion (hc.symm.trans h)
  cases prev with
  | none =>
    exact sound_of_order hm (.inl rfl) ⟨rfl, fun _ n hn => ⟨n, hn, rfl, rfl, id⟩⟩ hm.bounded rfl
      (fun _ => rfl) rfl rfl horder (fun _ ht => ht.2) (fun _ _ _ => rfl) hkeeps
  | some a =>
    refine sound_of_order hm (.inl rfl) (retains_modify fun n => ⟨rfl, rfl, id⟩)
      (fun y n hn => hm.bounded_modify hn) rfl (congrFun (Map.bucketNext_modify fun n => rfl))
      rfl rfl horder (fun _ ht => ht.2) (fun z hz _ => s.map.nodes_modify_ne ?_ _) hkeeps
    rintro rfl
    exact hz (hprev z rfl).1

end

end Sound

/-- An access of a thread is sound for the memory and the other threads. -/
theorem Effect.sound {s s' : State Thread Key Value} {pc : Pc Key Value} (hm : Mem s)
    (h : Effect s pc s'.map s'.published s'.appended) : Sound s s' pc := by
  refine .of_memory ?_
  generalize s'.map = m, s'.published = p, s'.appended = a at h ⊢
  cases h with
  | read => exact sound_lists hm hm.staging hm.allNodes
  | lists staging allNodes hs ha => exact sound_lists hm hs ha
  | construct key value => exact sound_construct hm key value
  | discard key x hown hx =>
    exact sound_modify hm (fun n => ⟨rfl, rfl, id⟩) (fun _ n => rfl) (fun n _ => rfl) (.inl hown)
  | storeNext key x p hown hx =>
    exact sound_modify hm (fun n => ⟨rfl, rfl, id⟩) (fun hmem => absurd hmem hx.1)
      (fun n _ => rfl) (.inl hown)
  | publish key x hown hx hnext => exact sound_publish hm hown hx hnext
  | giveUp key x hpc hx =>
    exact sound_modify hm (fun n => ⟨rfl, rfl, fun _ => rfl⟩) (fun _ n => rfl) (fun n _ => rfl)
      (.inl (by rw [hpc]; rfl))
  | mark key x hpc hx hkey hlive =>
    exact sound_modify hm (fun n => ⟨rfl, rfl, fun _ => rfl⟩) (fun _ n => rfl) (fun n _ => rfl)
      (.inr ⟨hx, fun _ n => rfl⟩)
  | splice after prev x q hpc hx hs => exact sound_splice hm hx hs
  | sweep caller i prev x q hpc hx hs =>
    have hsplice : Sound s { s with map := s.map.storeLink prev q } pc := sound_splice hm hx hs
    exact hsplice.trans (sound_modify hsplice.mem (fun n => ⟨rfl, rfl, id⟩)
      (fun _ n => rfl) (fun n _ => rfl) (.inr ⟨hx, fun _ n => rfl⟩))
  | reset key x hown hx =>
    obtain ⟨-, -, n, hn, -, hnext, -⟩ := hx
    refine sound_modify hm (fun n => ⟨rfl, rfl, id⟩) (fun _ n => rfl)
      (fun n' hn' => ?_) (.inl hown)
    rw [hn] at hn'
    cases hn'
    exact hnext.symm
  | first key x hpc hx hno hhead => exact sound_first hm (by rw [hpc]; rfl) hx hhead
  | append key x tail hpc hx hno htail hnext =>
    exact sound_append hm (by rw [hpc]; rfl) hx htail hnext
  | setTail x hlast => exact sound_setTail hm hlast
  | orderSplice caller prev x y hpc hprev hx hmark hlink hnext =>
    have hmem := (hx x rfl).1
    have hsplice : Sound s { s with map := s.map.storeOrderLink prev (some y) } pc :=
      sound_orderSplice hm (by rw [hpc]; rfl) hprev hmem hmark hlink hnext
    exact hsplice.trans (sound_modify hsplice.mem (fun n => ⟨rfl, rfl, id⟩)
      (fun _ n => rfl) (fun n _ => rfl) (.inr ⟨hm.appended x hmem, fun hno => absurd hmem hno⟩))
  | stamp x epoch hx =>
    refine sound_modify hm (fun n => ?_) (fun _ n => ?_) (fun n _ => ?_) (.inr ⟨hx, fun _ n => ?_⟩)
    · split
      · exact ⟨rfl, rfl, id⟩
      · exact ⟨rfl, rfl, id⟩
    all_goals split <;> rfl
  | free x safe hx hretired =>
    exact sound_modify hm (fun n => ⟨rfl, rfl, id⟩) (fun _ n => rfl) (fun n _ => rfl)
      (.inr ⟨hx, fun _ n => rfl⟩)

theorem Effect.published {s : State Thread Key Value} {pc : Pc Key Value} {m : Map Key Value}
    {published appended : List ℕ} (h : Effect s pc m published appended) : published = s.published ∨
      ∃ key x, published = s.published ++ [x] ∧ pc.own = some x ∧ s.Pending key x := by
  cases h with
  | publish key x hown hx => exact .inr ⟨key, x, rfl, hown, hx⟩
  | _ => exact .inl rfl

theorem Effect.appended {s : State Thread Key Value} {pc : Pc Key Value} {m : Map Key Value}
    {published appended : List ℕ} (h : Effect s pc m published appended) :
    appended = s.appended ∨ ∃ key x, appended = s.appended ++ [x] ∧ pc.own = some x ∧
      pc.backsOff = false ∧ s.Owned key x ∧ s.NoOlder key x := by
  cases h with
  | first key x hpc hx hno => exact .inr ⟨key, x, rfl, by rw [hpc]; rfl, by rw [hpc]; rfl, hx, hno⟩
  | append key x tail hpc hx hno =>
    exact .inr ⟨key, x, rfl, by rw [hpc]; rfl, by rw [hpc]; rfl, hx, hno⟩
  | _ => exact .inl rfl

end Equilibrium.LockFreeOrderedHashMap
