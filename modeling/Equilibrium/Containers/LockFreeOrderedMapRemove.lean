import Equilibrium.Containers.LockFreeOrderedMapPhases

/-! `remove_guarded` and the read-only calls on a settled map. A removed node leaves its
bucket at once and stays in the order list. -/

namespace Equilibrium.LockFreeOrderedHashMap

open Library.LinkedChain Function Option
open Map (load_held pairs)

variable {Key Value : Type}

namespace Map

/-- The map after node `x` was marked and unlinked through `l`. -/
def unlinked (m : Map Key Value) (x : ℕ) (l : Link) : Map Key Value :=
  (m.modify x fun n => { n with isDeleted := true }).storeLink l (m.bucketNext x)

section

variable (m : Map Key Value)
include m

theorem nodes_storeLink (l : Link) (p : Option ℕ) (y : ℕ) : (m.storeLink l p).nodes y =
      (m.nodes y).map fun n => if l = .node y then { n with bucketNext := p } else n := by
  cases l with
  | bucket i => simp [storeLink]
  | node x =>
    rw [storeLink, nodes_modify]
    congr 1
    funext n
    exact if_congr (by rw [Link.node.injEq]; exact eq_comm) rfl rfl

theorem nodes_unlinked (x : ℕ) (l : Link) (y : ℕ) :
    (m.unlinked x l).nodes y = (m.nodes y).map fun n =>
      { n with
        bucketNext := if l = .node y then m.bucketNext x else n.bucketNext
        isDeleted := n.isDeleted || decide (y = x) } := by
  rw [unlinked, nodes_storeLink, nodes_modify, Option.map_map]
  congr 1
  funext n
  dsimp only [comp]
  by_cases hy : y = x
  · rw [if_pos hy, decide_eq_true hy, Bool.or_true]
    split <;> rfl
  · rw [if_neg hy, decide_eq_false hy, Bool.or_false]
    split <;> rfl

theorem unlinked_fields (x : ℕ) (l : Link) :
    (m.unlinked x l).bucketCount = m.bucketCount ∧ (m.unlinked x l).allocated = m.allocated ∧
      (m.unlinked x l).orderHead = m.orderHead ∧ (m.unlinked x l).orderTail = m.orderTail ∧
      (m.unlinked x l).allNodes = m.allNodes ∧ (m.unlinked x l).staging = m.staging := by
  cases l <;> exact ⟨rfl, rfl, rfl, rfl, rfl, rfl⟩

theorem orderNext_unlinked (x : ℕ) (l : Link) : (m.unlinked x l).orderNext = m.orderNext := by
  funext y
  rw [orderNext, nodes_unlinked, orderNext]
  cases m.nodes y <;> rfl

end

theorem held_unlinked {m : Map Key Value} {x : ℕ} {l : Link} {y : ℕ} :
    (m.unlinked x l).Held y ↔ m.Held y := by
  rw [Held, Held, nodes_unlinked]
  simp

theorem live_unlinked {m : Map Key Value} {x : ℕ} {l : Link} {y : ℕ} {P : Key → Prop} :
    (∃ n, (m.unlinked x l).Live y n ∧ P n.key) ↔ y ≠ x ∧ ∃ n, m.Live y n ∧ P n.key := by
  simp only [Live, nodes_unlinked]
  constructor
  · rintro ⟨n', ⟨hn', hdeleted, hfreed⟩, hkey⟩
    obtain ⟨n, hn, rfl⟩ := map_eq_some_iff.mp hn'
    simp only [Bool.or_eq_false_iff, decide_eq_false_iff_not] at hdeleted
    exact ⟨hdeleted.2, n, ⟨hn, hdeleted.1, hfreed⟩, hkey⟩
  · rintro ⟨hy, n, ⟨hn, hdeleted, hfreed⟩, hkey⟩
    refine ⟨{ n with
      bucketNext := if l = .node y then m.bucketNext x else n.bucketNext
      isDeleted := n.isDeleted || decide (y = x) }, ⟨?_, ?_, hfreed⟩, hkey⟩
    · rw [hn]
      rfl
    · simp [hdeleted, hy]

theorem segment_unlinked {m : Map Key Value} {i x : ℕ} {l rest : List ℕ}
    (h : Segment m.bucketNext (m.buckets i) (l ++ x :: rest) none)
    (hheld : ∀ y ∈ l, m.Held y) : Segment (m.unlinked x (linkAfter (.bucket i) l)).bucketNext
      ((m.unlinked x (linkAfter (.bucket i) l)).buckets i) (l ++ rest) none := by
  have hmark : (m.modify x fun n => { n with isDeleted := true }).bucketNext = m.bucketNext :=
    bucketNext_modify fun _ => rfl
  rcases List.eq_nil_or_concat l with rfl | ⟨l, a, rfl⟩
  · have hbucket : (m.unlinked x (linkAfter (.bucket i) [])).buckets i = m.bucketNext x :=
      update_self _ _ _
    have hnext : (m.unlinked x (linkAfter (.bucket i) [])).bucketNext = m.bucketNext := hmark
    rw [hbucket, hnext]
    exact h.2
  · rw [List.concat_eq_append] at *
    have hlink : linkAfter (.bucket i) (l ++ [a]) = .node a := by simp [linkAfter]
    have ha : (m.modify x fun n => { n with isDeleted := true }).Held a := by
      obtain ⟨n, hn, hfreed⟩ := hheld a (by simp)
      rw [Held, nodes_modify, hn]
      refine ⟨_, rfl, ?_⟩
      split <;> exact hfreed
    rw [hlink, unlinked, bucketNext_storeNode ha, hmark, List.append_assoc]
    rw [List.append_assoc] at h
    exact h.unlink

end Map

variable [Hashable Key] {m : Map Key Value} {chain : ℕ → List ℕ} {order : List ℕ}

theorem Settled.unlinked (h : Settled m chain order) {i x : ℕ} {l rest : List ℕ}
    (hchain : chain i = l ++ x :: rest) : Settled (m.unlinked x (Map.linkAfter (.bucket i) l))
      (update chain i (l ++ rest)) order := by
  have hsegment := h.bucketChain i
  rw [hchain] at hsegment
  have hheld : ∀ y ∈ l, m.Held y := fun y hy => h.held (hchain ▸ List.mem_append_left _ hy)
  obtain ⟨hcount, hallocated, hhead, htail, hall, hstaging⟩ :=
    m.unlinked_fields x (Map.linkAfter (.bucket i) l)
  have hxnot : x ∉ l ++ rest := by
    have hnodup := hsegment.nodup
    rw [List.nodup_middle] at hnodup
    exact (List.nodup_cons.mp hnodup).1
  have hother : ∀ {b c y}, y ∈ chain b → y ∈ chain c → b = c := by
    intro b c y hb hc
    obtain ⟨n, hlive, rfl⟩ := (h.mem_chain b y).mp hb
    obtain ⟨n', hlive', rfl⟩ := (h.mem_chain c y).mp hc
    rw [Map.Live, hlive.1] at hlive'
    cases hlive'.1
    rfl
  refine ⟨⟨hcount ▸ h.positive, fun b => ?_, fun b y => ?_, fun y z n n' hy hz heq => ?_,
    fun y n' hn' => ?_, fun y n' hn' => ?_, fun y => ?_⟩, ?_, htail.trans h.tail,
    fun y hy => Map.held_unlinked.mpr (h.listed y hy), fun y n' hlive => ?_⟩
  · by_cases hb : b = i
    · subst hb
      rw [update_self]
      exact Map.segment_unlinked hsegment hheld
    · rw [update_of_ne hb]
      have hbucket : (m.unlinked x (Map.linkAfter (.bucket i) l)).buckets b = m.buckets b := by
        rcases List.eq_nil_or_concat l with rfl | ⟨l', a, rfl⟩
        · exact update_of_ne hb _ _
        · rw [Map.unlinked, Map.linkAfter, List.concat_eq_append, List.getLast?_concat]
          rfl
      rw [hbucket]
      refine (h.bucketChain b).congr fun y hy => ?_
      have hlink : Map.linkAfter (.bucket i) l ≠ .node y := by
        intro heq
        rw [Map.linkAfter] at heq
        cases hlast : l.getLast? with
        | none => simp [hlast] at heq
        | some a =>
          rw [hlast] at heq
          cases heq
          have ha : y ∈ chain i := hchain ▸ List.mem_append_left _ (List.mem_of_getLast? hlast)
          exact hb (hother hy ha)
      simp only [Map.bucketNext, Map.nodes_unlinked, if_neg hlink]
      cases m.nodes y <;> rfl
  · rw [hashKey_congr hcount, Map.live_unlinked (P := fun key => m.hashKey key = b), ← h.mem_chain]
    by_cases hb : b = i
    · subst hb
      rw [update_self, hchain]
      constructor
      · intro hy
        refine ⟨fun heq => hxnot (heq ▸ hy), ?_⟩
        rcases List.mem_append.mp hy with hy | hy <;> simp [hy]
      · rintro ⟨hyx, hy⟩
        rcases List.mem_append.mp hy with hy | hy
        · exact List.mem_append_left _ hy
        · exact List.mem_append_right _ ((List.mem_cons.mp hy).resolve_left hyx)
    · rw [update_of_ne hb]
      refine ⟨fun hy => ⟨fun heq => hb (hother (heq ▸ hy) ?_), hy⟩, And.right⟩
      rw [hchain]
      simp
  · obtain ⟨-, n₁, hy, hkey⟩ := (Map.live_unlinked (P := fun key => key = n.key)).mp ⟨n, hy, rfl⟩
    obtain ⟨-, n₂, hz, hkey'⟩ := (Map.live_unlinked (P := fun key => key = n.key)).mp ⟨n', hz, heq.symm⟩
    exact h.keys y z n₁ n₂ hy hz (hkey.trans hkey'.symm)
  · rw [Map.nodes_unlinked] at hn'
    obtain ⟨n, hn, rfl⟩ := map_eq_some_iff.mp hn'
    exact h.unswept y n hn
  · rw [Map.nodes_unlinked] at hn'
    obtain ⟨n, hn, -⟩ := map_eq_some_iff.mp hn'
    exact hallocated ▸ h.bounded y n hn
  · rw [hall, hstaging, h.tracked]
    exact Map.held_unlinked.symm
  · rw [Map.orderNext_unlinked, hhead]
    exact h.orderChain
  · obtain ⟨-, n, hlive, -⟩ := (Map.live_unlinked (P := fun _ => True)).mp ⟨n', hlive, trivial⟩
    exact h.live_listed y n hlive

omit [Hashable Key] in
theorem pair_unlinked (x : ℕ) (l : Link) (y : ℕ) :
    (m.unlinked x l).pair y = if y = x then none else m.pair y := by
  rw [Map.pair, Map.nodes_unlinked, Map.pair]
  cases m.nodes y with
  | none => simp
  | some n => by_cases hy : y = x <;> simp [hy]

variable [DecidableEq Key]

section

variable (h : Settled m chain order)
include h

theorem Settled.pairs_unlinked {x : ℕ} {n : Node Key Value} (hlive : m.Live x n) (l : Link) :
    (m.unlinked x l).pairs order = (m.pairs order).filter fun e => e.1 ≠ n.key := by
  rw [pairs, pairs, List.filter_filterMap]
  refine List.filterMap_congr fun y hy => ?_
  rw [pair_unlinked, Map.pair]
  obtain ⟨n', hn', hfreed⟩ := h.listed y hy
  rw [hn', bind_some]
  by_cases hyx : y = x
  · subst hyx
    rw [hlive.1] at hn'
    cases hn'
    simp [hlive.2.1, Option.filter]
  · rw [if_neg hyx]
    cases hdeleted : n'.isDeleted with
    | true => rfl
    | false =>
      have hkey : n'.key ≠ n.key := fun heq => hyx (h.keys y x n' n ⟨hn', hdeleted, hfreed⟩ hlive heq)
      simp [hkey, Option.filter]

theorem removable_eq (key : Key) : (key ∉ m.keys order ∧ m.removable key = .ok none) ∨
      ∃ x n, m.removable key = .ok (some x) ∧ m.Live x n ∧ n.key = key := by
  rcases h.findInBucket (.refl m) rfl key with ⟨hkey, hfind⟩ | ⟨x, n, hfind, hlive, hkey⟩
  · exact .inl ⟨hkey, by rw [Map.removable, hfind]; rfl⟩
  · refine .inr ⟨x, n, ?_, hlive, hkey⟩
    rw [Map.removable, hfind]
    simp [bind, Except.bind, load_held hlive.1 hlive.2.2, hlive.2.1]

omit [DecidableEq Key] in
theorem tryUnlink_marked {x : ℕ} {n : Node Key Value} (hlive : m.Live x n) {l rest : List ℕ}
    (hchain : chain (m.hashKey n.key) = l ++ x :: rest) :
    (m.modify x fun n => { n with isDeleted := true }).tryUnlinkFromBucket x =
      .ok (m.unlinked x (Map.linkAfter (.bucket (m.hashKey n.key)) l), true) := by
  have hmark : (m.modify x fun n => { n with isDeleted := true }).bucketNext = m.bucketNext :=
    Map.bucketNext_modify fun _ => rfl
  have hnode : (m.modify x fun n => { n with isDeleted := true }).nodes x =
      some { n with isDeleted := true } := by
    simp [hlive.1]
  have hsegment := h.bucketChain (m.hashKey n.key)
  have hlength := h.chain_length (m.hashKey n.key)
  rw [hchain] at hsegment hlength
  have hl : x ∉ l := fun hx => (List.nodup_append.mp hsegment.nodup).2.2 x hx x (by simp) rfl
  have hheld : ∀ y ∈ l ++ x :: rest, (m.modify x fun n => { n with isDeleted := true }).Held y := by
    intro y hy
    obtain ⟨n', hn', hfreed⟩ := h.held (hchain ▸ hy)
    rw [Map.Held, Map.nodes_modify, hn']
    refine ⟨_, rfl, ?_⟩
    split <;> exact hfreed
  have hloop : (m.modify x fun n => { n with isDeleted := true }).tryUnlinkLoop x m.allocated
      (.bucket (m.hashKey n.key)) _ = _ := Map.tryUnlinkLoop_eq
    (hmark.symm ▸ hsegment) hheld hl (by simp at hlength; omega)
  rw [hmark] at hloop
  rw [Map.tryUnlinkFromBucket, load_held hnode hlive.2.2]
  exact hloop

theorem removeGuarded_eq (key : Key) (failures : ℕ) :
    (key ∉ m.keys order ∧ m.removeGuarded key failures = .ok (m, none)) ∨
      ∃ x n l rest, m.removeGuarded key failures =
        .ok (m.unlinked x (Map.linkAfter (.bucket (m.hashKey key)) l), some x) ∧
        m.Live x n ∧ n.key = key ∧ chain (m.hashKey key) = l ++ x :: rest := by
  rcases removable_eq h key with ⟨hkey, hremovable⟩ | ⟨x, n, hremovable, hlive, rfl⟩
  · refine .inl ⟨hkey, ?_⟩
    cases failures <;> rw [Map.removeGuarded, hremovable] <;> rfl
  · obtain ⟨l, rest, hchain⟩ := List.append_of_mem ((h.mem_chain _ x).mpr ⟨n, hlive, rfl⟩)
    refine .inr ⟨x, n, l, rest, ?_, hlive, rfl, hchain⟩
    induction failures with
    | zero =>
      rw [Map.removeGuarded, hremovable]
      simp only [bind, Except.bind, tryUnlink_marked h hlive hchain]
    | succ failures ih =>
      rw [Map.removeGuarded, hremovable]
      exact ih

/-! `find`, `with_value` and the walks over the order list. -/

theorem liveLoop_eq (key : Key) : (key ∉ m.keys order ∧
        m.liveLoop key m.allocated (m.buckets (m.hashKey key)) = .ok none) ∨
      ∃ x n, m.liveLoop key m.allocated (m.buckets (m.hashKey key)) = .ok (some x) ∧
        m.Live x n ∧ n.key = key := by
  rcases h.liveLoop (.refl m) key (m.hashKey key) with ⟨hno, hloop⟩ | ⟨x, n, hloop, hlive, hkey, -⟩
  · exact .inl ⟨fun hkey => hno ⟨hkey, rfl⟩, hloop⟩
  · exact .inr ⟨x, n, hloop, hlive, hkey⟩

theorem find_eq (key : Key) : (key ∉ m.keys order ∧ m.find key = .ok none) ∨
      ∃ value, (key, value) ∈ m.pairs order ∧ m.find key = .ok (some value) := by
  rcases liveLoop_eq h key with ⟨hkey, hloop⟩ | ⟨x, n, hloop, hlive, hkey⟩
  · exact .inl ⟨hkey, by rw [Map.find, hloop]; rfl⟩
  · refine .inr ⟨n.value, Map.mem_pairs.mpr ⟨x, h.live_listed x n hlive, n, hlive.1, hlive.2.1, hkey,
      rfl⟩, ?_⟩
    rw [Map.find, hloop]
    simp only [bind, Except.bind, load_held hlive.1 hlive.2.2]

theorem withValue_eq (key : Key) (callback : Value → Value) :
    (key ∉ m.keys order ∧ m.withValue key callback = .ok (m, false)) ∨
      ∃ m', key ∈ m.keys order ∧ m.withValue key callback = .ok (m', true) ∧
        Settled m' chain order ∧ m'.pairs order =
          ((m.pairs order).map fun e => if e.1 = key then (e.1, callback e.2) else e) ∧
        (∀ x, m'.frame x = m.frame x) ∧ m'.bucketCount = m.bucketCount ∧
        m'.orderTail = m.orderTail := by
  rcases liveLoop_eq h key with ⟨hkey, hloop⟩ | ⟨x, n, hloop, hlive, rfl⟩
  · exact .inl ⟨hkey, by rw [Map.withValue, hloop]; rfl⟩
  · have hframe : ∀ y, (m.modify x fun n => { n with value := callback n.value }).frame y =
        m.frame y := by
      intro y
      rw [Map.frame, Map.frame, Map.nodes_modify, Option.map_map]
      congr 1
      funext n
      split <;> rfl
    have hnext : (m.modify x fun n => { n with value := callback n.value }).orderNext =
        m.orderNext := Map.orderNext_modify fun _ => rfl
    refine .inr ⟨m.modify x fun n => { n with value := callback n.value },
      h.mem_keys.mpr ⟨x, n, hlive, rfl⟩, by rw [Map.withValue, hloop]; rfl,
      h.of_frame (h.toBucketed.of_frame rfl rfl rfl hframe fun _ => Iff.rfl) hframe
        (hnext.symm ▸ h.orderChain) h.tail (fun _ hy => hy) fun _ hy _ _ => hy, ?_, hframe, rfl, rfl⟩
    rw [pairs, pairs, List.map_filterMap]
    refine List.filterMap_congr fun y hy => ?_
    obtain ⟨n', hn', hfreed⟩ := h.listed y hy
    rw [Map.pair, Map.nodes_modify, Map.pair, hn']
    by_cases hyx : y = x
    · subst hyx
      rw [hlive.1] at hn'
      cases hn'
      simp [hlive.2.1]
    · cases hdeleted : n'.isDeleted with
      | true => simp [hyx, hdeleted]
      | false =>
        have hkey : n'.key ≠ n.key := fun heq =>
          hyx (h.keys y x n' n ⟨hn', hdeleted, hfreed⟩ hlive heq)
        simp [hyx, hdeleted, hkey]

end

section

omit [Hashable Key] [DecidableEq Key]

theorem snapshotLoop_eq {l : List ℕ} {p : Option ℕ} {rounds : ℕ}
    (hp : Segment m.orderNext p l none) (hl : ∀ x ∈ l, m.Held x) (hrounds : l.length ≤ rounds) :
    m.snapshotLoop rounds p = .ok ((m.pairs l).map Prod.fst) := by
  induction l generalizing p rounds with
  | nil =>
    cases hp
    cases rounds <;> rfl
  | cons x l ih =>
    obtain ⟨rfl, hp⟩ := hp
    obtain ⟨n, hn, hfreed⟩ := hl x (by simp)
    rw [Map.orderNext_node hn] at hp
    cases rounds with
    | zero => simp at hrounds
    | succ rounds =>
      have hrest := ih hp (fun y hy => hl y (by simp [hy])) (Nat.le_of_succ_le_succ hrounds)
      have hpair : m.pair x = if n.isDeleted then none else some (n.key, n.value) := by
        rw [Map.pair, hn]
        rfl
      rw [Map.snapshotLoop, load_held hn hfreed, pairs, List.filterMap_cons, hpair]
      simp only [bind, Except.bind, hrest]
      cases n.isDeleted <;> rfl

theorem skipDeleted_eq {l : List ℕ} {p : Option ℕ} {rounds : ℕ}
    (hp : Segment m.orderNext p l none) (hl : ∀ x ∈ l, m.Held x) (hrounds : l.length ≤ rounds) :
    ∃ l', l' <:+ l ∧ m.skipDeleted rounds p = .ok l'.head? ∧
      Segment m.orderNext l'.head? l' none ∧ m.pairs l' = m.pairs l ∧
      ∀ x ∈ l'.head?, ∃ n, m.nodes x = some n ∧ n.isDeleted = false := by
  induction l generalizing p rounds with
  | nil =>
    cases hp
    exact ⟨[], List.suffix_refl _, by cases rounds <;> rfl, rfl, rfl, nofun⟩
  | cons x l ih =>
    have hsegment := hp
    obtain ⟨rfl, hp⟩ := hp
    obtain ⟨n, hn, hfreed⟩ := hl x (by simp)
    rw [Map.orderNext_node hn] at hp
    cases rounds with
    | zero => simp at hrounds
    | succ rounds =>
      rw [Map.skipDeleted, load_held hn hfreed]
      cases hdeleted : n.isDeleted with
      | false =>
        refine ⟨x :: l, List.suffix_refl _, ?_, hsegment, rfl, fun y hy => ⟨n, ?_, hdeleted⟩⟩
        · simp [bind, Except.bind, hdeleted]
        · cases hy
          exact hn
      | true =>
        obtain ⟨l', hsuffix, hok, hseg, hpairs, hhead⟩ := ih hp (fun y hy => hl y (by simp [hy]))
          (Nat.le_of_succ_le_succ hrounds)
        refine ⟨l', hsuffix.trans (List.suffix_cons _ _), ?_, hseg, ?_, hhead⟩
        · simpa [bind, Except.bind, hdeleted] using hok
        · have hpair : m.pair x = none := by
            rw [Map.pair, hn, bind_some, hdeleted]
            rfl
          rw [hpairs, pairs, pairs, List.filterMap_cons, hpair]

theorem iterateLoop_eq {l : List ℕ} {rounds : ℕ} (hp : Segment m.orderNext l.head? l none)
    (hl : ∀ x ∈ l, m.Held x) (hrounds : l.length ≤ rounds) (hallocated : l.length ≤ m.allocated)
    (hhead : ∀ x ∈ l.head?, ∃ n, m.nodes x = some n ∧ n.isDeleted = false) :
    m.iterateLoop rounds l.head? = .ok (m.pairs l) := by
  induction rounds generalizing l with
  | zero =>
    have hnil : l = [] := List.length_eq_zero_iff.mp (Nat.le_zero.mp hrounds)
    subst hnil
    rfl
  | succ rounds ih =>
    cases l with
    | nil => rfl
    | cons x l =>
      obtain ⟨-, hp⟩ := hp
      obtain ⟨n, hn, hfreed⟩ := hl x (by simp)
      obtain ⟨n', hn', hdeleted⟩ := hhead x rfl
      rw [hn] at hn'
      cases hn'
      rw [Map.orderNext_node hn] at hp
      have hle : l.length ≤ m.allocated := by simp at hallocated; omega
      obtain ⟨l', hsuffix, hskip, hseg, hpairs, hhead'⟩ := skipDeleted_eq hp
        (fun y hy => hl y (by simp [hy])) hle
      have hlength := hsuffix.length_le
      have hrest := ih hseg (fun y hy => hl y (by simp [hsuffix.subset hy]))
        (by simp at hrounds; omega) (by simp at hallocated; omega) hhead'
      have hpair : m.pair x = some (n.key, n.value) := by
        rw [Map.pair, hn, bind_some, hdeleted]
        rfl
      rw [List.head?_cons, Map.iterateLoop, load_held hn hfreed, pairs, List.filterMap_cons,
        hpair]
      simp only [bind, Except.bind, hskip, hrest, hpairs]
      rfl

end

section

omit [DecidableEq Key]

theorem orderedKeysSnapshot_eq (h : Settled m chain order) :
    m.orderedKeysSnapshot = .ok (m.keys order) :=
  snapshotLoop_eq h.orderChain h.listed h.order_length

theorem iterate_eq (h : Settled m chain order) : m.iterate = .ok (m.pairs order) := by
  obtain ⟨l, hsuffix, hskip, hseg, hpairs, hhead⟩ :=
    skipDeleted_eq h.orderChain h.listed h.order_length
  have hlength := Nat.le_trans hsuffix.length_le h.order_length
  rw [Map.iterate, hskip]
  exact (iterateLoop_eq hseg (fun x hx => h.listed x (hsuffix.subset hx)) hlength hlength hhead).trans
    (by rw [hpairs])

end

end Equilibrium.LockFreeOrderedHashMap
