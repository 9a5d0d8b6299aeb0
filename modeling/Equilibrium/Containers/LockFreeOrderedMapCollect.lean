import Equilibrium.Containers.LockFreeOrderedMapRemove

/-! `collect_garbage` on a settled map. It finds no marked node in a bucket, so it marks
none as swept there, stamps none and frees none; all it does is to take marked nodes out
of the order list. -/

namespace Equilibrium.LockFreeOrderedHashMap

open Library.LinkedChain List
open Map (load_held pairs stampNode sweepBucket)

variable {Key Value : Type} {m : Map Key Value} {chain : ℕ → List ℕ} {order : List ℕ} {l : List ℕ}

theorem sweepBucket_eq {i rounds : ℕ} {prev : Link} {p : Option ℕ}
    (hp : Segment m.bucketNext p l none) (hl : ∀ x ∈ l, ∃ n, m.Live x n)
    (hrounds : l.length ≤ rounds) : sweepBucket i rounds m prev p = .ok m := by
  induction l generalizing p prev rounds with
  | nil =>
    cases hp
    cases rounds <;> rfl
  | cons x l ih =>
    obtain ⟨rfl, hp⟩ := hp
    obtain ⟨n, hn, hdeleted, hfreed⟩ := hl x (by simp)
    rw [Map.bucketNext_node hn] at hp
    cases rounds with
    | zero => simp at hrounds
    | succ rounds =>
      rw [sweepBucket, load_held hn hfreed]
      have hrest : sweepBucket i rounds m (.node x) n.bucketNext = .ok m :=
        ih hp (fun y hy => hl y (by simp [hy])) (Nat.le_of_succ_le_succ hrounds)
      simpa [bind, Except.bind, hdeleted] using hrest

theorem sweepBuckets_eq [Hashable Key] (h : Bucketed m chain) (l : List ℕ) :
    l.foldlM (fun m i => sweepBucket i m.allocated m (.bucket i) (m.buckets i)) m = .ok m := by
  induction l with
  | nil => rfl
  | cons i l ih =>
    rw [foldlM_cons, sweepBucket_eq (h.bucketChain i) (fun x hx => ?_) (h.chain_length i)]
    · exact ih
    · obtain ⟨n, hlive, -⟩ := (h.mem_chain i x).mp hx
      exact ⟨n, hlive⟩

/-- The nodes that a sweep leaves in the order list: all but marked ones before the last. -/
def keptOrder (m : Map Key Value) : List ℕ → List ℕ
  | [] => []
  | [x] => [x]
  | x :: y :: rest =>
    if (m.nodes x).any (·.isDeleted) then keptOrder m (y :: rest)
    else x :: keptOrder m (y :: rest)

theorem keptOrder_sublist (m : Map Key Value) (l : List ℕ) : (keptOrder m l).Sublist l := by
  fun_induction keptOrder m l with
  | case1 => exact List.Sublist.refl _
  | case2 x => exact List.Sublist.refl _
  | case3 x y rest hd ih => exact ih.cons x
  | case4 x y rest hd ih => exact ih.cons_cons x

theorem keptOrder_getLast? (m : Map Key Value) (l : List ℕ) :
    (keptOrder m l).getLast? = l.getLast? := by
  fun_induction keptOrder m l with
  | case1 => rfl
  | case2 x => rfl
  | case3 x y rest hd ih => rw [ih, getLast?_cons_cons]
  | case4 x y rest hd ih =>
    rw [getLast?_cons_cons, getLast?_cons, ih]
    rfl

theorem mem_keptOrder {x : ℕ} {n : Node Key Value} (hx : x ∈ l) (hn : m.nodes x = some n)
    (hdeleted : n.isDeleted = false) : x ∈ keptOrder m l := by
  fun_induction keptOrder m l with
  | case1 => exact hx
  | case2 y => exact hx
  | case3 z y rest hd ih =>
    refine ih ((mem_cons.mp hx).resolve_left ?_)
    rintro rfl
    rw [hn, Option.any_some, hdeleted] at hd
    cases hd
  | case4 z y rest hd ih =>
    rcases mem_cons.mp hx with rfl | hx
    · exact mem_cons_self
    · exact mem_cons_of_mem _ (ih hx)

theorem pairs_keptOrder (m : Map Key Value) (l : List ℕ) : m.pairs (keptOrder m l) = m.pairs l := by
  fun_induction keptOrder m l with
  | case1 => rfl
  | case2 x => rfl
  | case3 x y rest hd ih =>
    have hpair : m.pair x = none := by
      rw [Map.pair]
      cases hn : m.nodes x with
      | none => rfl
      | some n =>
        rw [hn, Option.any_some] at hd
        rw [Option.bind_some, hd]
        rfl
    rw [ih, pairs, pairs, filterMap_cons (a := x), hpair]
  | case4 x y rest hd ih =>
    rw [pairs, filterMap_cons, ← pairs, ih, pairs, pairs,
      filterMap_cons (a := x)]

theorem keptOrder_congr {m' : Map Key Value} (hcore : ∀ x, m'.core x = m.core x) (l : List ℕ) :
    keptOrder m' l = keptOrder m l := by
  have hmark : ∀ x, (m'.nodes x).any (·.isDeleted) = (m.nodes x).any (·.isDeleted) := by
    intro x
    have heq : ∀ m : Map Key Value,
        (m.nodes x).any (·.isDeleted) = (m.core x).any (·.isDeleted) := by
      intro m
      rw [Map.core]
      cases m.nodes x <;> rfl
    rw [heq, heq, hcore]
  fun_induction keptOrder m l with
  | case1 => rfl
  | case2 x => rfl
  | case3 x y rest hd ih => rw [keptOrder, hmark, if_pos hd, ih]
  | case4 x y rest hd ih => rw [keptOrder, hmark, if_neg hd, ih]

/-- What a sweep of the order list does when `pre` is behind it and `rest` before it. -/
structure OrderSwept (m m' : Map Key Value) (pre rest : List ℕ) : Prop where
  buckets : m'.buckets = m.buckets
  count : m'.bucketCount = m.bucketCount
  allocated : m'.allocated = m.allocated
  tail : m'.orderTail = m.orderTail
  allNodes : m'.allNodes = m.allNodes
  staging : m'.staging = m.staging
  core : ∀ x, m'.core x = m.core x
  segment : Segment m'.orderNext m'.orderHead (pre ++ keptOrder m rest) none

/-- One splice of the sweep: `x` leaves the order list. -/
def Map.spliced (m : Map Key Value) (prev : Option ℕ) (x : ℕ) : Map Key Value :=
  (m.storeOrderLink prev (m.orderNext x)).modify x fun n => { n with orderSwept := true }

theorem spliced_fields (m : Map Key Value) (prev : Option ℕ) (x : ℕ) :
    (m.spliced prev x).buckets = m.buckets ∧ (m.spliced prev x).bucketCount = m.bucketCount ∧
      (m.spliced prev x).allocated = m.allocated ∧ (m.spliced prev x).orderTail = m.orderTail ∧
      (m.spliced prev x).allNodes = m.allNodes ∧ (m.spliced prev x).staging = m.staging := by
  cases prev <;> exact ⟨rfl, rfl, rfl, rfl, rfl, rfl⟩

theorem core_spliced (m : Map Key Value) (prev : Option ℕ) (x y : ℕ) :
    (m.spliced prev x).core y = m.core y := by
  have hmark := Map.core_modify (m := m.storeOrderLink prev (m.orderNext x)) (x := x)
    (f := fun n => { n with orderSwept := true }) (fun _ => rfl) y
  refine hmark.trans ?_
  cases prev with
  | none => rfl
  | some a =>
    exact Map.core_modify (f := fun n => { n with orderNext := m.orderNext x })
      (fun _ => rfl) y

theorem held_of_core {m' : Map Key Value} (hcore : ∀ x, m'.core x = m.core x) {x : ℕ} :
    m'.Held x ↔ m.Held x :=
  have hframe := frame_of_core hcore
  ⟨held_of_frame hframe, held_of_frame fun y => (hframe y).symm⟩

theorem orderLink_getLast {pre rest : List ℕ}
    (h : Segment m.orderNext m.orderHead (pre ++ rest) none) :
    m.orderLink pre.getLast? = rest.head? := by
  obtain ⟨q, hpre, hrest⟩ := segment_append.mp h
  have hq : q = rest.head? := by
    cases rest with
    | nil => exact hrest
    | cons x rest => exact hrest.1
  rcases eq_nil_or_concat pre with rfl | ⟨pre, a, rfl⟩
  · exact hpre.trans hq
  · rw [concat_eq_append, getLast?_concat]
    rw [concat_eq_append] at hpre
    obtain ⟨-, -, rfl, hnext⟩ := segment_append.mp hpre
    exact hnext.trans hq

theorem segment_spliced {pre rest : List ℕ} {x : ℕ} (hheld : ∀ y ∈ pre, m.Held y)
    (h : Segment m.orderNext m.orderHead (pre ++ x :: rest) none) :
    Segment (m.spliced pre.getLast? x).orderNext (m.spliced pre.getLast? x).orderHead
      (pre ++ rest) none := by
  have hnext : (m.spliced pre.getLast? x).orderNext =
      (m.storeOrderLink pre.getLast? (m.orderNext x)).orderNext :=
    Map.orderNext_modify fun _ => rfl
  rw [hnext]
  rcases eq_nil_or_concat pre with rfl | ⟨pre, a, rfl⟩
  · exact h.2
  · rw [concat_eq_append] at *
    rw [getLast?_concat, Map.storeOrderLink, orderNext_store (hheld a (by simp))]
    rw [append_assoc] at h ⊢
    exact h.unlink

theorem sweepOrder_swept {pre rest : List ℕ} {rounds : ℕ}
    (h : Segment m.orderNext m.orderHead (pre ++ rest) none)
    (hheld : ∀ x ∈ pre ++ rest, m.Held x) (hrounds : rest.length ≤ rounds) :
    ∃ m', Map.sweepOrder rounds m pre.getLast? rest.head? = .ok m' ∧ OrderSwept m m' pre rest := by
  induction rest generalizing m pre rounds with
  | nil => exact ⟨m, by cases rounds <;> rfl, rfl, rfl, rfl, rfl, rfl, rfl, fun _ => rfl, h⟩
  | cons x rest ih =>
    obtain ⟨rounds, rfl⟩ : ∃ r, rounds = r + 1 := ⟨rounds - 1, by simp at hrounds; omega⟩
    obtain ⟨n, hn, hfreed⟩ := hheld x (by simp)
    have hlink := orderLink_getLast h
    have hnextSegment : Segment m.orderNext m.orderHead (pre ++ [x] ++ rest) none := by simpa using h
    have hnext : n.orderNext = rest.head? := by
      have := orderLink_getLast hnextSegment
      rw [getLast?_concat] at this
      exact (Map.orderNext_node hn).symm.trans this
    have hlength : rest.length ≤ rounds := Nat.le_of_succ_le_succ hrounds
    have hany : (m.nodes x).any (·.isDeleted) = n.isDeleted := by rw [hn]; rfl
    rw [head?_cons, Map.sweepOrder, load_held hn hfreed]
    by_cases hdead : n.isDeleted ∧ n.orderNext ≠ none
    · obtain ⟨hdeleted, hsome⟩ := hdead
      obtain ⟨y, rest, rfl⟩ : ∃ y l, rest = y :: l := by
        cases rest with
        | nil => exact absurd hnext hsome
        | cons y l => exact ⟨y, l, rfl⟩
      have hcore := core_spliced m pre.getLast? x
      obtain ⟨m', hok, hswept⟩ := ih
        (segment_spliced (fun z hz => hheld z (mem_append_left _ hz)) h)
        (fun z hz => (held_of_core hcore).mpr (hheld z (by simp at hz ⊢; tauto))) hlength
      obtain ⟨hbuckets, hcount, hallocated, htail, hall, hstaging⟩ :=
        spliced_fields m pre.getLast? x
      refine ⟨m', ?_, hswept.buckets.trans hbuckets, hswept.count.trans hcount,
        hswept.allocated.trans hallocated, hswept.tail.trans htail, hswept.allNodes.trans hall,
        hswept.staging.trans hstaging, fun z => (hswept.core z).trans (hcore z), ?_⟩
      · have hspliced : (m.storeOrderLink pre.getLast? n.orderNext).modify x
            (fun n => { n with orderSwept := true }) = m.spliced pre.getLast? x := by
          rw [Map.spliced, Map.orderNext_node hn]
        rw [← hnext] at hok
        simp only [bind, Except.bind, hdeleted, hlink, hspliced]
        rw [if_pos ⟨trivial, hsome⟩]
        exact (if_pos rfl).trans hok
      · have hkept : keptOrder m (x :: y :: rest) = keptOrder m (y :: rest) := by
          rw [keptOrder, if_pos (hany.trans hdeleted)]
        have := hswept.segment
        rwa [keptOrder_congr hcore, ← hkept] at this
    · obtain ⟨m', hok, hswept⟩ := ih hnextSegment (by simpa using hheld) hlength
      have hkept : keptOrder m (x :: rest) = x :: keptOrder m rest := by
        cases rest with
        | nil => rfl
        | cons y rest =>
          have hdeleted : n.isDeleted = false := by
            by_contra hd
            exact hdead ⟨by simpa using hd, by rw [hnext]; simp⟩
          rw [keptOrder, hany, hdeleted]
          rfl
      refine ⟨m', ?_, { hswept with segment := ?_ }⟩
      · rw [getLast?_concat, ← hnext] at hok
        simp only [bind, Except.bind]
        rw [if_neg hdead]
        exact hok
      · rw [hkept]
        simpa using hswept.segment

theorem stampNodes_eq (epoch : ℤ)
    (hl : ∀ x ∈ l, ∃ n, m.nodes x = some n ∧ n.freed = false ∧ n.bucketSwept = false) :
    l.foldlM (stampNode epoch) m = .ok m := by
  induction l with
  | nil => rfl
  | cons x l ih =>
    obtain ⟨n, hn, hfreed, hswept⟩ := hl x (by simp)
    have hstamp : stampNode epoch m x = .ok m := by
      rw [stampNode, load_held hn hfreed]
      simp [bind, Except.bind, hswept]
    rw [foldlM_cons, hstamp]
    exact ih fun y hy => hl y (by simp [hy])

theorem freeLoop_eq (safe : ℤ)
    (hl : ∀ x ∈ l, ∃ n, m.nodes x = some n ∧ n.freed = false ∧ n.retiredEpoch = -1) :
    Map.freeLoop safe l m = .ok (m, l) := by
  induction l with
  | nil => rfl
  | cons x l ih =>
    obtain ⟨n, hn, hfreed, hretired⟩ := hl x (by simp)
    have hrest := ih fun y hy => hl y (by simp [hy])
    rw [Map.freeLoop, load_held hn hfreed]
    simp [bind, Except.bind, hretired, hrest]

/-- A collection finds nothing to free: the nodes and the tail stay. -/
structure Collected (m m' : Map Key Value) : Prop where
  core : ∀ x, m'.core x = m.core x
  count : m'.bucketCount = m.bucketCount
  tail : m'.orderTail = m.orderTail

theorem Collected.refl (m : Map Key Value) : Collected m m := ⟨fun _ => rfl, rfl, rfl⟩

def Map.drained (m : Map Key Value) : Map Key Value :=
  { m with allNodes := m.allNodes ++ m.staging, staging := [] }

variable {s : Single Key Value}

theorem collectGarbage_steps {m₁ : Map Key Value}
    (hbuckets : (range s.map.drained.bucketCount).foldlM
      (fun m i => sweepBucket i m.allocated m (.bucket i) (m.buckets i)) s.map.drained =
        .ok s.map.drained)
    (hsweep : Map.sweepOrder s.map.drained.allocated s.map.drained none s.map.drained.orderHead =
      .ok m₁) (hstamp : m₁.allNodes.foldlM (stampNode s.current) m₁ = .ok m₁)
    (hfree : ∀ safe, Map.freeLoop safe m₁.allNodes m₁ = .ok (m₁, m₁.allNodes)) :
    ∃ s', s.collectGarbage = .ok s' ∧ s'.map = m₁ := by
  rw [Single.collectGarbage, ← Map.drained]
  simp only [hbuckets, hsweep, hstamp, bind, Except.bind]
  by_cases hadvance : ∃ a ∈ s.slots, a ≠ -1 ∧ a < s.current
  · simp only [Single.tryAdvance, if_pos hadvance, hfree]
    exact ⟨_, rfl, rfl⟩
  · simp only [Single.tryAdvance, if_neg hadvance, hfree]
    exact ⟨_, rfl, rfl⟩

theorem collectGarbage_eq [Hashable Key] (h : Settled s.map chain order) :
    ∃ s', s.collectGarbage = .ok s' ∧ Settled s'.map chain (keptOrder s.map order) ∧
      s'.map.pairs (keptOrder s.map order) = s.map.pairs order ∧ Collected s.map s'.map := by
  have hdrained : Settled s.map.drained chain order :=
    h.of_frame (h.toBucketed.of_frame rfl rfl rfl (fun _ => rfl) fun x => by simp [Map.drained])
      (fun _ => rfl) h.orderChain h.tail (fun _ hx => hx) fun _ hx _ _ => hx
  have hbuckets := sweepBuckets_eq hdrained.toBucketed (range s.map.drained.bucketCount)
  have horder : Segment s.map.drained.orderNext s.map.drained.orderHead ([] ++ order) none :=
    hdrained.orderChain
  obtain ⟨m₁, hsweep, hswept⟩ := sweepOrder_swept horder hdrained.listed hdrained.order_length
  have hhead : s.map.drained.orderHead = order.head? :=
    orderLink_getLast horder
  rw [← hhead] at hsweep
  have hframe := frame_of_core hswept.core
  have hbucketed : Bucketed m₁ chain := hdrained.toBucketed.of_frame hswept.buckets hswept.count
    hswept.allocated hframe fun x => by rw [hswept.allNodes, hswept.staging]
  have hkept : keptOrder s.map.drained order = keptOrder s.map order :=
    keptOrder_congr (show ∀ x, s.map.drained.core x = s.map.core x from fun _ => rfl) order
  have hsegment := hswept.segment
  rw [hkept, nil_append] at hsegment
  have hsettled : Settled m₁ chain (keptOrder s.map order) :=
    hdrained.of_frame hbucketed hframe hsegment
      (by rw [hswept.tail, keptOrder_getLast?]; exact h.tail)
      (fun x hx => (keptOrder_sublist s.map order).subset hx)
      fun x hx n hlive => mem_keptOrder hx hlive.1 hlive.2.1
  have hnodes : ∀ x ∈ m₁.allNodes, ∃ n, m₁.nodes x = some n ∧ n.freed = false ∧
      n.bucketSwept = false ∧ n.retiredEpoch = -1 := by
    intro x hx
    obtain ⟨n, hn, hfreed⟩ := (hbucketed.tracked x).mp (mem_append_left _ hx)
    exact ⟨n, hn, hfreed, hbucketed.unswept x n hn⟩
  have hstamp := stampNodes_eq s.current fun x hx => by
    obtain ⟨n, hn, hfreed, hunswept, -⟩ := hnodes x hx
    exact ⟨n, hn, hfreed, hunswept⟩
  have hfree := fun safe => freeLoop_eq safe fun x hx => by
    obtain ⟨n, hn, hfreed, -, hretired⟩ := hnodes x hx
    exact ⟨n, hn, hfreed, hretired⟩
  have hpairs : m₁.pairs (keptOrder s.map order) = s.map.pairs order := by
    rw [← pairs_keptOrder s.map order]
    exact filterMap_congr fun x _ => pair_of_core hswept.core x
  obtain ⟨s', hok, rfl⟩ := collectGarbage_steps hbuckets hsweep hstamp hfree
  exact ⟨s', hok, hsettled, hpairs, hswept.core, hswept.count, hswept.tail⟩

theorem postMutate_eq [Hashable Key] (h : Settled s.map chain order) :
    ∃ s' order', s.postMutate = .ok s' ∧ Settled s'.map chain order' ∧
      s'.map.pairs order' = s.map.pairs order ∧ Collected s.map s'.map := by
  obtain ⟨s₁, hs₁, hmap⟩ : ∃ s₁, s₁ = (if s.opCount % 256 = 0 then
      ({ s with opCount := s.opCount + 1 } : Single Key Value).tryAdvance
    else { s with opCount := s.opCount + 1 }) ∧ s₁.map = s.map := by
    refine ⟨_, rfl, ?_⟩
    split
    · rw [Single.tryAdvance]
      split <;> rfl
    · rfl
  have hpost : s.postMutate =
      if kAutoGCThreshold ≤ s₁.deleteSinceGc then s₁.collectGarbage else .ok s₁ := by
    rw [hs₁]
    rfl
  rw [hpost, ← hmap]
  rw [← hmap] at h
  split
  · obtain ⟨s', hok, hsettled, hpairs, hcollected⟩ := collectGarbage_eq h
    exact ⟨s', _, hok, hsettled, hpairs, hcollected⟩
  · exact ⟨s₁, order, rfl, h, rfl, .refl _⟩

end Equilibrium.LockFreeOrderedHashMap
